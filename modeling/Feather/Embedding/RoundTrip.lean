import Mathlib.Data.Rat.Encodable
import Feather.Embedding.Getters

/-!
# Saving a tree of embedded objects and loading it

`WellFormed` says that the properties of a managed object form a tree: values fit their declared
classes, each embedded object is embedded in the one above it, and collections hold embedded
objects.

`EmbeddingTree.roundTrips_iff`: the saved document is loaded as the tree itself exactly if no
embedded object in it holds another (`Shallow`).
-/

namespace Feather.Embedding

open Keyed Program List Option Tree
open Feather.Model (Key)

variable {className id property : String} {cache cache' : Cache} {rest items : Content}
  {e : Value}

/-! ### Trees of embedded objects -/

/-- Where entries stand: as the properties of an object of a class, or as the items of a collection
of an object, which is given by its identifier. -/
inductive Context
  | properties (className : String) (owner : Option String)
  | items (property : String) (owner : Option String)

/-- The context of the properties of an embedded object. -/
def contextOf (entries : Content) : Context :=
  .properties ((objectType entries).getD "") (identifier entries)

/-- A leaf fits the class of its property.  URLs are properties of managed objects only. -/
def LeafFits (propertyClass : PropertyClass) (owner : Option String) : Leaf → Prop
  | .string _ => propertyClass = .plain ∨ propertyClass = .model
  | .number _ => propertyClass = .plain
  | .date _ => propertyClass = .date
  | .data _ => propertyClass = .data
  | .url _ => propertyClass = .url ∧ owner = none

/-- The items of an array are numbered. -/
def Numbered : ℕ → Content → Prop
  | _, .nil => True
  | i, .value k _ rest => k = .index i ∧ Numbered (i + 1) rest
  | i, .node k _ _ rest => k = .index i ∧ Numbered (i + 1) rest

/-- Entries that fit their properties. -/
def WellFormed (runtime : Runtime) : Context → Content → Prop
  | _, .nil => True
  | .properties className owner, .value k v rest =>
    (∃ property, k = .name property ∧
      LeafFits (runtime.classOfProperty className property) owner v) ∧
    WellFormed runtime (.properties className owner) rest
  | .properties className owner, .node k (.object key embedder) entries rest =>
    (k = .name key ∧ embedder = owner ∧
      ∃ declared, runtime.classOfProperty className key = .embedded declared ∧
        (objectType entries).any (runtime.isKindOf · declared)) ∧
    Identified runtime entries ∧ WellFormed runtime (contextOf entries) entries ∧
    WellFormed runtime (.properties className owner) rest
  | .properties className owner, .node k .array items rest =>
    (∃ property exact, k = .name property ∧
      runtime.classOfProperty className property = .array exact ∧ isEmbeddedName property ∧
      Numbered 0 items ∧ WellFormed runtime (.items property owner) items) ∧
    WellFormed runtime (.properties className owner) rest
  | .properties className owner, .node k .dictionary items rest =>
    (∃ property exact, k = .name property ∧
      runtime.classOfProperty className property = .dictionary exact ∧ isEmbeddedName property ∧
      WellFormed runtime (.items property owner) items) ∧
    WellFormed runtime (.properties className owner) rest
  | .items property owner, .node _ (.object key embedder) entries rest =>
    (key = property ∧ embedder = owner) ∧ Identified runtime entries ∧
      WellFormed runtime (contextOf entries) entries ∧
      WellFormed runtime (.items property owner) rest
  | .items _ _, _ => False

/-- No embedded object of the managed object holds an embedded object. -/
def Shallow : Content → Prop
  | .nil => True
  | .value _ _ rest => Shallow rest
  | .node _ (.object _ _) entries rest => entries.All (fun kind => kind.isObject = false) ∧ Shallow rest
  | .node _ _ items rest => Shallow items ∧ Shallow rest

/-- The identifiers of the objects that the managed object embeds itself. -/
def embeddedIDs : Content → List String
  | .nil => []
  | .value _ _ rest => embeddedIDs rest
  | .node _ (.object _ _) entries rest => (identifier entries).toList ++ embeddedIDs rest
  | .node _ _ items rest => embeddedIDs items ++ embeddedIDs rest

section

variable {runtime : Runtime}

/-! ### One embedded object -/

theorem objectProperties_cons (embedder : Option String) (className : String) (k : Key) (e : Value)
    (rest : Content) :
    objectProperties runtime embedder className (.cons k e rest) =
      consOption k (objectProperties.propertyOf runtime embedder className k e)
        (objectProperties runtime embedder className rest) := by
  cases e <;> rfl

theorem length_consOption_le (k : Key) (e : Option Value) (rest : Content) :
    (consOption k e rest).length ≤ rest.length + 1 := by
  cases e <;> simp [consOption]

theorem consOption_eq_cons_iff {k : Key} {o : Option Value} {rest' : Content}
    (hle : rest'.length ≤ rest.length) :
    consOption k o rest' = .cons k e rest ↔ o = some e ∧ rest' = rest := by
  cases o with
  | none =>
    have hne : rest' ≠ .cons k e rest := by
      rintro rfl
      rw [Tree.length_cons] at hle
      omega
    simp [consOption, hne]
  | some e' => simp [consOption, cons_inj]

attribute [local simp] externalizeEntries

theorem length_externalizeEntries (coding : Coding) (inCollection : Bool) (content : Content) :
    (externalizeEntries coding inCollection content).length = content.length := by
  induction content generalizing inCollection with
  | nil => rfl
  | value k v rest ih => simp [Tree.length, ih]
  | node k kind entries rest _ ih => cases kind <;> simp [Tree.length, ih]

theorem length_objectProperties_le (embedder : Option String) (className : String)
    (content : Content) :
    (objectProperties runtime embedder className content).length ≤ content.length := by
  induction content using level_induction with
  | nil => simp [objectProperties]
  | cons k e rest ih =>
    rw [objectProperties_cons, Tree.length_cons]
    have := length_consOption_le k (objectProperties.propertyOf runtime embedder className k e)
      (objectProperties runtime embedder className rest)
    omega

attribute [local simp] embeddedGetter externalizeLeaf

attribute [local simp] leafGetter

theorem embeddedGetter_externalizeLeaf (hcod : runtime.coding.RoundTrips)
    {propertyClass : PropertyClass} {v : Leaf} (hfits : LeafFits propertyClass (some id) v)
    (embedder : Option String) (property : String) :
    embeddedGetter runtime embedder propertyClass property
      (.value (externalizeLeaf runtime.coding v)) = some (.value v) := by
  cases v with
  | string s => rcases hfits with rfl | rfl <;> rfl
  | number q =>
    cases hfits
    rfl
  | date t =>
    cases hfits
    simp [hcod.date]
  | data bytes =>
    cases hfits
    simp [hcod.data]
  | url address => cases hfits.2

theorem WellFormed.items_cases {owner : Option String}
    (h : WellFormed runtime (.items property owner) items) :
    items = .nil ∨ ∃ k key embedder entries rest,
      items = .node k (.object key embedder) entries rest := by
  cases items with
  | nil => exact .inl rfl
  | value k v rest => exact h.elim
  | node k kind entries rest =>
    cases kind with
    | object key embedder => exact .inr ⟨k, key, embedder, entries, rest, rfl⟩
    | array => exact h.elim
    | dictionary => exact h.elim

attribute [local simp] Tree.All

theorem embeddedGetter_collection {owner : Option String}
    (h : WellFormed runtime (.items property owner) items) (hname : isEmbeddedName property)
    (embedder : Option String) {propertyClass : PropertyClass} {kind : Kind}
    (hcls : kind = .array ∧ (∃ exact, propertyClass = .array exact) ∨
      kind = .dictionary ∧ ∃ exact, propertyClass = .dictionary exact) :
    embeddedGetter runtime embedder propertyClass property
        (.node kind (externalizeEntries runtime.coding true items)) = some (.node kind items) ↔
      items.All fun kind => kind.isObject = false := by
  rcases h.items_cases with rfl | ⟨k, key, embedder', entries, rest, rfl⟩
  · rcases hcls with ⟨rfl, exact, rfl⟩ | ⟨rfl, exact, rfl⟩ <;> cases exact <;>
      simp [textItems, hname]
  · rcases hcls with ⟨rfl, exact, rfl⟩ | ⟨rfl, exact, rfl⟩ <;> cases exact <;>
      simp [textItems, Kind.isObject]

theorem objectProperties_cons_iff {embedder : Option String} :
    objectProperties runtime embedder className
        (externalizeEntries runtime.coding false (.cons (.name property) e rest)) =
        .cons (.name property) e rest ↔
      embeddedGetter runtime embedder (runtime.classOfProperty className property) property
          (externalizeEntry runtime.coding e) = some e ∧
        objectProperties runtime embedder className
          (externalizeEntries runtime.coding false rest) = rest := by
  have hle : (objectProperties runtime embedder className
      (externalizeEntries runtime.coding false rest)).length ≤ rest.length := by
    rw [← length_externalizeEntries runtime.coding false rest]
    exact length_objectProperties_le embedder className _
  rw [externalizeEntries_cons, objectProperties_cons, consOption_eq_cons_iff hle]
  rfl

/-- An embedded object read back has its properties if none is or holds an embedded object. -/
theorem objectProperties_externalizeEntries_iff (hcod : runtime.coding.RoundTrips)
    {entries : Content} (h : WellFormed runtime (.properties className (some id)) entries)
    (embedder : Option String) :
    objectProperties runtime embedder className (externalizeEntries runtime.coding false entries) =
        entries ↔
      entries.All fun kind => kind.isObject = false := by
  induction entries with
  | nil => simp [objectProperties]
  | value k v rest ih =>
    obtain ⟨⟨property, rfl, hfits⟩, hrest⟩ := h
    refine (objectProperties_cons_iff (e := .value v)).trans ?_
    rw [ih hrest]
    exact and_iff_right (embeddedGetter_externalizeLeaf hcod hfits embedder property)
  | node k kind inner rest _ ih =>
    cases kind with
    | object key embedder' =>
      -- a property of such a class has no getter
      obtain ⟨⟨rfl, -, declared, hdcl, -⟩, -⟩ := h
      refine (objectProperties_cons_iff (e := .node _ inner)).trans ?_
      simp [hdcl, Kind.isObject]
    | array =>
      obtain ⟨⟨property, exact, rfl, hcls, hname, -, hit⟩, hrest⟩ := h
      refine (objectProperties_cons_iff (e := .node _ inner)).trans ?_
      rw [ih hrest, hcls]
      exact (and_congr_left' (embeddedGetter_collection hit hname embedder
        (.inl ⟨rfl, exact, rfl⟩))).trans (by simp [Kind.isObject])
    | dictionary =>
      obtain ⟨⟨property, exact, rfl, hcls, hname, hit⟩, hrest⟩ := h
      refine (objectProperties_cons_iff (e := .node _ inner)).trans ?_
      rw [ih hrest, hcls]
      exact (and_congr_left' (embeddedGetter_collection hit hname embedder
        (.inr ⟨rfl, exact, rfl⟩))).trans (by simp [Kind.isObject])

/-! ### The objects that the managed object embeds -/

/-- The object in the cache under the identifier of a written one. -/
def cachedObject (cache : Cache) (entries : Content) : Option EmbeddedObject :=
  (identifier entries).bind fun id => cache.lookup id

/-- The object that is made of a written one: the one in the cache, or a new one. -/
def madeObject (coding : Coding) (cache : Cache) (key : String) (entries : Content) :
    EmbeddedObject :=
  (cachedObject cache entries).getD ⟨key, externalizeEntries coding false entries⟩

/-- The objects of a collection as they are made from their dictionaries. -/
def madeObjects (coding : Coding) (cache : Cache) (property : String) : Content → Content
  | .node k _ entries rest =>
    let o := madeObject coding cache property entries
    .node k (.object o.embeddingKey none) o.properties (madeObjects coding cache property rest)
  | content => content

/-- The object made of a written one has its properties: a new one if none is or holds an embedded
object, a cached one if it has them already. -/
def Agrees (runtime : Runtime) (cache : Cache) (property : String) (entries : Content) : Prop :=
  match cachedObject cache entries with
  | none => entries.All fun kind => kind.isObject = false
  | some o => typedValue runtime o.value = .node (.object property none) entries

theorem typedObject_externalizeEntries_iff (hcod : runtime.coding.RoundTrips)
    {entries : Content} (hid : Identified runtime entries)
    (h : WellFormed runtime (contextOf entries) entries) (embedder : Option String) :
    typedObject runtime embedder (externalizeEntries runtime.coding false entries) = entries ↔
      entries.All fun kind => kind.isObject = false := by
  obtain ⟨id, className, hide, htype, -⟩ := hid
  unfold contextOf at h
  rw [hide, htype] at h
  unfold typedObject
  rw [objectType_externalizeEntries runtime.coding htype]
  exact objectProperties_externalizeEntries_iff hcod h embedder

theorem typedValue_madeObject_iff (hcod : runtime.coding.RoundTrips) {entries : Content}
    (hid : Identified runtime entries) (h : WellFormed runtime (contextOf entries) entries)
    (cache : Cache) (property : String) :
    typedValue runtime (madeObject runtime.coding cache property entries).value =
        .node (.object property none) entries ↔
      Agrees runtime cache property entries := by
  unfold madeObject Agrees
  cases cachedObject cache entries with
  | none =>
    simp only [getD_none, EmbeddedObject.value, typedValue, Entry.node.injEq, true_and]
    exact typedObject_externalizeEntries_iff hcod hid h none
  | some o => rfl

/-- The same for each object of a collection. -/
def ItemsAgree (runtime : Runtime) (cache : Cache) (property : String) : Content → Prop
  | .nil => True
  | .value _ _ rest => ItemsAgree runtime cache property rest
  | .node _ _ entries rest =>
    Agrees runtime cache property entries ∧ ItemsAgree runtime cache property rest

theorem typedItems_madeObjects_iff (hcod : runtime.coding.RoundTrips)
    (h : WellFormed runtime (.items property none) items) (cache : Cache) :
    typedItems runtime (madeObjects runtime.coding cache property items) = items ↔
      ItemsAgree runtime cache property items := by
  induction items with
  | nil => simp [madeObjects, typedItems, ItemsAgree]
  | value k v rest => exact h.elim
  | node k kind entries rest _ ih =>
    cases kind with
    | object key embedder =>
      obtain ⟨⟨rfl, rfl⟩, hid, hent, hrest⟩ := h
      have hfst := typedValue_madeObject_iff hcod hid hent cache key
      simp only [EmbeddedObject.value, typedValue, Entry.node.injEq] at hfst
      simp only [madeObjects, typedItems, ItemsAgree, node.injEq, true_and]
      rw [← and_assoc, hfst, ih hrest]
    | array => exact h.elim
    | dictionary => exact h.elim

/-- A written object is made, and the cache then has it under its identifier. -/
theorem exec_embeddedObject_of_written {entries : Content} (hid : Identified runtime entries)
    (cache : Cache) (key : String) :
    ∃ cache', exec (embeddedObjectWithDictionary runtime
        (externalizeEntries runtime.coding false entries) key) cache =
        some (.ok (some (madeObject runtime.coding cache key entries), cache')) ∧
      (∀ id ∈ identifier entries, cache'.lookup id =
        some (madeObject runtime.coding cache key entries)) ∧
      ∀ id, id ∉ identifier entries → cache'.lookup id = cache.lookup id := by
  obtain ⟨id, className, hide, htype, hkind, hsts⟩ := id hid
  have hwrt := identifier_externalizeEntries runtime.coding hide
  have hwri := objectType_externalizeEntries runtime.coding htype
  unfold embeddedObjectWithDictionary initWithDictionary madeObject cachedObject
  cases hlk : cache.lookup id with
  | none =>
    refine ⟨(id, ⟨key, externalizeEntries runtime.coding false entries⟩) :: cache, ?_, ?_, ?_⟩
    · simp [hide, hwrt, hwri, hkind, hsts, hlk]
    · intro other hoth
      cases hide.symm.trans hoth
      simp [hide, hlk]
    · intro other hoth
      have hne : other ≠ id := fun heq => hoth (heq ▸ hide)
      rw [lookup_cons, beq_false_of_ne hne]
  | some o =>
    refine ⟨cache, ?_, ?_, fun _ _ => rfl⟩
    · simp [hide, hwrt, hwri, hkind, hlk]
    · intro other hoth
      cases hide.symm.trans hoth
      simp [hide, hlk]

theorem cachedObject_congr {entries : Content}
    (hca : ∀ id ∈ identifier entries, cache'.lookup id = cache.lookup id) :
    cachedObject cache' entries = cachedObject cache entries := by
  unfold cachedObject
  cases hid : identifier entries with
  | none => rfl
  | some id => simp [hca id hid]

theorem madeObject_congr (coding : Coding) (key : String) {entries : Content}
    (hca : ∀ id ∈ identifier entries, cache'.lookup id = cache.lookup id) :
    madeObject coding cache' key entries = madeObject coding cache key entries := by
  unfold madeObject
  rw [cachedObject_congr hca]

/-- The objects of a collection. -/
def objectsOf : Content → List Content
  | .nil => []
  | .value _ _ rest => objectsOf rest
  | .node _ _ entries rest => entries :: objectsOf rest

/-- Objects of a collection with one identifier are one object. -/
def Consistent (items : Content) : Prop :=
  (objectsOf items).Pairwise fun entries entries' =>
    identifier entries = identifier entries' → entries = entries'

/-- An object that was made is made again as it is. -/
theorem madeObject_of_made {key : String} {entries entries' : Content}
    (hid : Identified runtime entries) (hmade : ∀ id ∈ identifier entries, cache'.lookup id =
      some (madeObject runtime.coding cache key entries))
    (hots : ∀ id, id ∉ identifier entries → cache'.lookup id = cache.lookup id)
    (hsame : identifier entries = identifier entries' → entries = entries') :
    madeObject runtime.coding cache' key entries' = madeObject runtime.coding cache key entries' := by
  by_cases heq : identifier entries = identifier entries'
  · obtain rfl := hsame heq
    obtain ⟨id, className, hide, -⟩ := hid
    rw [madeObject, cachedObject, hide, bind_some, hmade id hide, getD_some]
  · refine madeObject_congr _ key fun id hmem => hots id fun hmem' => heq ?_
    rw [mem_def.1 hmem, mem_def.1 hmem']

theorem madeObjects_congr (coding : Coding) (property : String)
    (hmade : ∀ entries ∈ objectsOf items,
      madeObject coding cache' property entries = madeObject coding cache property entries)
    (h : WellFormed runtime (.items property none) items) :
    madeObjects coding cache' property items = madeObjects coding cache property items := by
  induction items with
  | nil => rfl
  | value k v rest => rfl
  | node k kind entries rest _ ih =>
    cases kind with
    | array => exact h.elim
    | dictionary => exact h.elim
    | object key embedder =>
      rw [objectsOf, forall_mem_cons] at hmade
      simp only [madeObjects, hmade.1, ih hmade.2 h.2.2.2]

/-- The getter of a collection makes all its objects. -/
theorem exec_itemsGetter (h : WellFormed runtime (.items property none) items) {number : Option ℕ}
    (hnum : ∀ i ∈ number, Numbered i items) (cache : Cache) (hsame : Consistent items) :
    ∃ cache', exec (itemsGetter runtime property number
        (externalizeEntries runtime.coding true items)) cache =
        some (.ok (madeObjects runtime.coding cache property items, cache')) ∧
      ∀ id, id ∉ embeddedIDs items → cache'.lookup id = cache.lookup id := by
  induction items generalizing number cache with
  | nil => exact ⟨cache, rfl, fun _ _ => rfl⟩
  | value k v rest => exact h.elim
  | node k kind entries rest _ ih =>
    cases kind with
    | array => exact h.elim
    | dictionary => exact h.elim
    | object key embedder =>
      obtain ⟨⟨rfl, rfl⟩, hid, -, hrest⟩ := h
      rw [Consistent, objectsOf, pairwise_cons] at hsame
      obtain ⟨cache₁, hfst, hown, hca1⟩ := exec_embeddedObject_of_written hid cache key
      have hnumber' : ∀ i ∈ number.map (· + 1), Numbered i rest := by
        intro i hi
        obtain ⟨j, hj, rfl⟩ := map_eq_some_iff.1 hi
        exact (hnum j hj).2
      obtain ⟨cache₂, hlat, hca2⟩ := ih hrest hnumber' cache₁ hsame.2
      rw [madeObjects_congr runtime.coding key
        (fun entries' hmem => madeObject_of_made hid hown hca1 (hsame.1 entries' hmem)) hrest]
        at hlat
      refine ⟨cache₂, ?_, ?_⟩
      · have hkey : ∀ e rest, consItem number k e rest = .cons k e rest := by
          intro e rest
          cases number with
          | none => rfl
          | some i =>
            rw [(hnum i rfl).1]
            rfl
        simp [itemsGetter, itemGetter, embeddedObjectWithValue, hfst, hlat, hkey, madeObjects,
          EmbeddedObject.value, Tree.cons]
      · intro id hmem
        simp only [embeddedIDs, mem_append, mem_toList, not_or] at hmem
        rw [hca2 id hmem.2, hca1 id hmem.1]

theorem mem_embeddedIDs {entries : Content} (h : WellFormed runtime (.items property none) items)
    (hmem : entries ∈ objectsOf items) (hid : id ∈ identifier entries) :
    id ∈ embeddedIDs items := by
  induction items with
  | nil => cases hmem
  | value k v rest => exact h.elim
  | node k kind entries' rest _ ih =>
    cases kind with
    | array => exact h.elim
    | dictionary => exact h.elim
    | object key embedder =>
      rw [embeddedIDs, mem_append, mem_toList]
      rcases mem_cons.1 hmem with rfl | hmem
      · exact .inl hid
      · exact .inr (ih h.2.2.2 hmem)

theorem consistent_of_nodup (h : WellFormed runtime (.items property none) items)
    (hnd : (embeddedIDs items).Nodup) : Consistent items := by
  induction items with
  | nil => exact List.Pairwise.nil
  | value k v rest => exact h.elim
  | node k kind entries rest _ ih =>
    cases kind with
    | array => exact h.elim
    | dictionary => exact h.elim
    | object key embedder =>
      simp only [embeddedIDs, nodup_append, mem_toList] at hnd
      obtain ⟨-, ⟨id, className, hid, -⟩, -, hrest⟩ := h
      refine List.Pairwise.cons (fun entries' hmem heq => ?_) (ih hrest hnd.2.1)
      have hlat := mem_embeddedIDs hrest hmem (heq ▸ hid)
      exact absurd rfl (hnd.2.2 id hid id hlat)

/-! ### New objects -/

theorem cachedObject_eq_none {entries : Content}
    (hca : ∀ id ∈ identifier entries, cache.lookup id = none) :
    cachedObject cache entries = none := by
  unfold cachedObject
  cases hid : identifier entries with
  | none => rfl
  | some id => exact hca id hid

theorem agrees_of_lookup_eq_none {entries : Content}
    (hca : ∀ id ∈ identifier entries, cache.lookup id = none) (property : String) :
    Agrees runtime cache property entries ↔ entries.All fun kind => kind.isObject = false := by
  unfold Agrees
  rw [cachedObject_eq_none hca]

theorem itemsAgree_iff_shallow (h : WellFormed runtime (.items property none) items)
    (hca : ∀ id ∈ embeddedIDs items, cache.lookup id = none) :
    ItemsAgree runtime cache property items ↔ Shallow items := by
  induction items with
  | nil => rfl
  | value k v rest => exact h.elim
  | node k kind entries rest _ ih =>
    cases kind with
    | object key embedder =>
      simp only [embeddedIDs, mem_append, mem_toList] at hca
      simp only [ItemsAgree, Shallow]
      rw [agrees_of_lookup_eq_none fun id hmem => hca id (.inl hmem),
        ih h.2.2.2 fun id hmem => hca id (.inr hmem)]
    | array => exact h.elim
    | dictionary => exact h.elim

/-! ### The whole tree -/

attribute [local simp] managedGetter externalizePropertyValue typedValue

theorem exec_readProperty_leaf (hcod : runtime.coding.RoundTrips) {v : Leaf}
    (hfits : LeafFits (runtime.classOfProperty className property) none v) (cache : Cache) :
    exec (readProperty runtime className (.name property)
        (externalizePropertyValue runtime.coding (.value v))) cache =
      some (.ok (some (.value v), cache)) := by
  unfold readProperty
  cases v with
  | string s =>
    rcases hfits with hcls | hcls <;>
      simp [hcls]
  | number q =>
    simp [show _ = _ from hfits]
  | date t =>
    simp [show _ = _ from hfits, hcod.date]
  | data bytes =>
    simp [show _ = _ from hfits, hcod.data]
  | url address =>
    simp [hfits.1]

/-- The embedded object in a property, read back, if it is of the declared class. -/
theorem exec_readProperty_object {key declared : String} {entries : Content}
    (hcls : runtime.classOfProperty className key = .embedded declared)
    (hid : Identified runtime entries) (cache : Cache)
    (hdcl : (objectType (madeObject runtime.coding cache key entries).properties).any
      (runtime.isKindOf · declared)) :
    ∃ cache', exec (readProperty runtime className (.name key) (externalizePropertyValue
        runtime.coding (.node (.object key none) entries))) cache =
        some (.ok (some (typedValue runtime (madeObject runtime.coding cache key entries).value),
          cache')) ∧
      ∀ id, id ∉ identifier entries → cache'.lookup id = cache.lookup id := by
  obtain ⟨cache', hexec, -, hca'⟩ := exec_embeddedObject_of_written hid cache key
  refine ⟨cache', ?_, hca'⟩
  simp [readProperty, hcls, objectGetter, decodeEmbeddedObject, embeddedObjectWithValue, hexec,
    EmbeddedObject.value, hdcl]

theorem objectType_madeObject {entries : Content} {declared : String}
    (hdcl : (objectType entries).any (runtime.isKindOf · declared))
    (hca : ∀ id ∈ identifier entries, cache.lookup id = none) (key : String) :
    (objectType (madeObject runtime.coding cache key entries).properties).any
      (runtime.isKindOf · declared) := by
  have hnew : madeObject runtime.coding cache key entries =
      ⟨key, externalizeEntries runtime.coding false entries⟩ := by
    rw [madeObject, cachedObject_eq_none hca]
    rfl
  cases htype : objectType entries with
  | none => simp [htype] at hdcl
  | some objectClass =>
    rw [hnew, objectType_externalizeEntries runtime.coding htype, ← htype]
    exact hdcl

theorem exec_readProperty_collection (hname : isEmbeddedName property) {kind : Kind}
    (hcls : kind = .array ∧ (∃ exact, runtime.classOfProperty className property = .array exact) ∧
        Numbered 0 items ∨
      kind = .dictionary ∧ ∃ exact, runtime.classOfProperty className property = .dictionary exact)
    (h : WellFormed runtime (.items property none) items) (cache : Cache)
    (hsame : Consistent items) :
    ∃ cache', exec (readProperty runtime className (.name property) (externalizePropertyValue
        runtime.coding (.node kind items))) cache =
        some (.ok (some (.node kind (typedItems runtime
          (madeObjects runtime.coding cache property items))), cache')) ∧
      ∀ id, id ∉ embeddedIDs items → cache'.lookup id = cache.lookup id := by
  rcases hcls with ⟨rfl, ⟨exact, hcls⟩, hnbd⟩ | ⟨rfl, exact, hcls⟩
  · have hnum : ∀ i ∈ some 0, Numbered i items := fun i hi => some.inj hi ▸ hnbd
    obtain ⟨cache', hexec, hca'⟩ := exec_itemsGetter h hnum cache hsame
    refine ⟨cache', ?_, hca'⟩
    simp [readProperty, hcls, hname, hexec]
  · have hnum : ∀ i ∈ (none : Option ℕ), Numbered i items := by simp
    obtain ⟨cache', hexec, hca'⟩ := exec_itemsGetter h hnum cache hsame
    refine ⟨cache', ?_, hca'⟩
    simp [readProperty, hcls, hname, hexec]

theorem load_cons (className : String) (k : Key) (e : Value) (rest : Content) :
    load runtime className (.cons k e rest) = (do
      let value ← readProperty runtime className k e
      consOption k value <$> load runtime className rest) := by
  cases e <;> rfl

theorem exec_load_cons {k : Key} {e' : Value} {rest' : Content} {cache₁ cache₂ : Cache}
    (hfst : exec (readProperty runtime className k (externalizePropertyValue runtime.coding e))
      cache = some (.ok (some e', cache₁)))
    (hrest : exec (load runtime className (document runtime.coding rest)) cache₁ =
      some (.ok (rest', cache₂))) :
    exec (load runtime className (document runtime.coding (.cons k e rest))) cache =
      some (.ok (.cons k e' rest', cache₂)) := by
  rw [document_cons, load_cons, exec_bind, hfst, andThen_ok, exec_map, hrest]
  rfl

theorem exec_load_collection (hcod : runtime.coding.RoundTrips) (hname : isEmbeddedName property)
    {kind : Kind}
    (hcls : kind = .array ∧ (∃ exact, runtime.classOfProperty className property = .array exact) ∧
        Numbered 0 items ∨
      kind = .dictionary ∧ ∃ exact, runtime.classOfProperty className property = .dictionary exact)
    (hit : WellFormed runtime (.items property none) items)
    (ih : ∀ cache : Cache, (embeddedIDs rest).Nodup →
      (∀ id ∈ embeddedIDs rest, cache.lookup id = none) →
      ∃ loaded cache', exec (load runtime className (document runtime.coding rest)) cache =
        some (.ok (loaded, cache')) ∧ (loaded = rest ↔ Shallow rest))
    (hnd : (embeddedIDs (.node (.name property) kind items rest)).Nodup)
    (hca : ∀ id ∈ embeddedIDs (.node (.name property) kind items rest), cache.lookup id = none) :
    ∃ loaded cache', exec (load runtime className (document runtime.coding
        (.node (.name property) kind items rest))) cache = some (.ok (loaded, cache')) ∧
      (loaded = .node (.name property) kind items rest ↔
        Shallow (.node (.name property) kind items rest)) := by
  have hids : embeddedIDs (.node (.name property) kind items rest) =
      embeddedIDs items ++ embeddedIDs rest := by
    rcases hcls with ⟨rfl, -⟩ | ⟨rfl, -⟩ <;> rfl
  have hsha : Shallow (.node (.name property) kind items rest) ↔
      Shallow items ∧ Shallow rest := by
    rcases hcls with ⟨rfl, -⟩ | ⟨rfl, -⟩ <;> rfl
  simp only [hids, nodup_append, mem_append] at hnd hca
  obtain ⟨cache₁, hfst, hca1⟩ :=
    exec_readProperty_collection hname hcls hit cache (consistent_of_nodup hit hnd.1)
  obtain ⟨loaded, cache', hexec, hiff⟩ := ih cache₁ hnd.2.1 (by
    intro id hmem
    rw [hca1 id fun hmem' => hnd.2.2 id hmem' id hmem rfl]
    exact hca id (.inr hmem))
  refine ⟨_, cache', exec_load_cons hfst hexec, ?_⟩
  have hite := (typedItems_madeObjects_iff hcod hit cache).trans
    (itemsAgree_iff_shallow hit fun id hmem => hca id (.inl hmem))
  rw [hsha, ← hite, ← hiff]
  show cons _ _ _ = cons (.name property) (.node kind items) rest ↔ _
  rw [cons_inj, and_iff_right rfl, Entry.node.injEq, and_iff_right rfl]

/-- Loading the saved document succeeds, and gives the tree if no nested object is in it. -/
theorem exec_load_document (hcod : runtime.coding.RoundTrips) {tree : Content}
    (h : WellFormed runtime (.properties className none) tree) (hnd : (embeddedIDs tree).Nodup)
    (hca : ∀ id ∈ embeddedIDs tree, cache.lookup id = none) :
    ∃ loaded cache', exec (load runtime className (document runtime.coding tree)) cache =
      some (.ok (loaded, cache')) ∧ (loaded = tree ↔ Shallow tree) := by
  induction tree generalizing cache with
  | nil => exact ⟨.nil, cache, rfl, by simp [Shallow]⟩
  | value k v rest ih =>
    obtain ⟨⟨property, rfl, hfits⟩, hrest⟩ := h
    obtain ⟨loaded, cache', hexec, hiff⟩ := ih hrest hnd hca
    refine ⟨_, cache', exec_load_cons (e := .value v)
      (exec_readProperty_leaf hcod hfits cache) hexec, ?_⟩
    simp [Tree.cons, Shallow, hiff]
  | node k kind entries rest _ ih =>
    cases kind with
    | object key embedder =>
      obtain ⟨⟨rfl, rfl, declared, hcls, hdcl⟩, hid, hent, hrest⟩ := h
      simp only [embeddedIDs, nodup_append, mem_append, mem_toList] at hnd hca
      have hnew : ∀ id ∈ identifier entries, cache.lookup id = none := fun id hmem =>
        hca id (.inl hmem)
      obtain ⟨cache₁, hfst, hca1⟩ := exec_readProperty_object hcls hid cache
        (objectType_madeObject hdcl hnew key)
      have hcache' : ∀ id ∈ embeddedIDs rest, cache₁.lookup id = none := by
        intro id hmem
        rw [hca1 id fun hmem' => hnd.2.2 id hmem' id hmem rfl]
        exact hca id (.inr hmem)
      obtain ⟨loaded, cache', hexec, hiff⟩ := ih hrest hnd.2.1 hcache'
      refine ⟨_, cache', exec_load_cons hfst hexec, ?_⟩
      have hobj := (typedValue_madeObject_iff hcod hid hent cache key).trans
        (agrees_of_lookup_eq_none hnew key)
      show cons _ _ _ = cons (.name key) (.node (.object key none) entries) rest ↔ _
      rw [cons_inj, and_iff_right rfl, hobj, hiff]
      rfl
    | array =>
      obtain ⟨⟨property, exact, rfl, hcls, hname, hnbd, hit⟩, hrest⟩ := h
      exact exec_load_collection hcod hname (.inl ⟨rfl, ⟨exact, hcls⟩, hnbd⟩) hit
        (fun cache hnd hca => ih hrest hnd hca) hnd hca
    | dictionary =>
      obtain ⟨⟨property, exact, rfl, hcls, hname, hit⟩, hrest⟩ := h
      exact exec_load_collection hcod hname (.inr ⟨rfl, exact, hcls⟩) hit
        (fun cache hnd hca => ih hrest hnd hca) hnd hca

end

/-- A tree of embedded objects, with different identifiers, under a managed object of a class. -/
structure EmbeddingTree (runtime : Runtime) (className : String) where
  properties : Content
  wellFormed : WellFormed runtime (.properties className none) properties
  distinct : (embeddedIDs properties).Nodup

/-- Saving and loading into a fresh object gives the tree back. -/
def EmbeddingTree.RoundTrips {runtime : Runtime} {className : String}
    (tree : EmbeddingTree runtime className) : Prop :=
  ∃ cache, exec (load runtime className (document runtime.coding tree.properties)) [] =
    some (.ok (tree.properties, cache))

theorem EmbeddingTree.roundTrips_iff_of_load {runtime : Runtime}
    (tree : EmbeddingTree runtime className) {loaded : Content}
    (hload : exec (load runtime className (document runtime.coding tree.properties)) [] =
      some (.ok (loaded, cache))) : tree.RoundTrips ↔ loaded = tree.properties := by
  unfold RoundTrips
  rw [hload]
  constructor
  · rintro ⟨cache', heq⟩
    simp only [some.injEq, Except.ok.injEq, Prod.mk.injEq] at heq
    exact heq.1
  · rintro rfl
    exact ⟨cache, rfl⟩

/-- The tree is given back exactly if no embedded object in it holds an embedded object. -/
theorem EmbeddingTree.roundTrips_iff {runtime : Runtime} {className : String}
    (tree : EmbeddingTree runtime className) (hcoding : runtime.coding.RoundTrips) :
    tree.RoundTrips ↔ Shallow tree.properties := by
  have hemp : ∀ id ∈ embeddedIDs tree.properties, lookup id ([] : Cache) = none :=
    fun _ _ => rfl
  obtain ⟨loaded, cache, hload, hiff⟩ :=
    exec_load_document hcoding tree.wellFormed tree.distinct hemp
  rw [tree.roundTrips_iff_of_load hload, hiff]

/-! ### The classes of the tests -/

/-- Dates and data as texts of so many characters as their number; no JSON text. -/
def unaryCoding : Coding where
  dateText t := String.ofList (replicate (Encodable.encode t) '1')
  dateOfText s := Encodable.decode s.length
  dataText bytes :=
    String.ofList (replicate (Encodable.encode (bytes.map UInt8.toNat)) '1')
  dataOfText s := (Encodable.decode s.length : Option (List ℕ)).map fun l => l.map UInt8.ofNat
  jsonText _ := ""
  jsonOfText _ := none

theorem unaryCoding_roundTrips : unaryCoding.RoundTrips where
  date t := by simp [unaryCoding]
  data bytes := by simp [unaryCoding, Function.comp_def]

/-- `MPTestObject` and `MPEmbeddedTestObject`. -/
def testRuntime : Runtime where
  classOfProperty _ property :=
    if property = "embeddedTestObject" ∨ property = "anotherEmbeddedObject" then
      .embedded "MPEmbeddedTestObject"
    else if property = "embeddedManagedObjectProperty" then .model
    else if property = "embeddedArrayOfTestObjects" then .array true
    else if property = "embeddedDictionaryOfTestObjects" then .dictionary true
    else .plain
  classKind className :=
    if className = "MPEmbeddedTestObject" then .embedded
    else if className = "MPTestObject" then .other else .unknown
  isKindOf className other := className == other
  coding := unaryCoding

/-- An `MPEmbeddedTestObject` with an identifier and other properties. -/
def embeddedTestObject (id : String) (rest : Content) : Content :=
  .value (.name "_id") (.string id)
    (.value (.name "objectType") (.string "MPEmbeddedTestObject") rest)

theorem identified_embeddedTestObject (rest : Content) (h : hasPrefix "MPEmbeddedTestObject" id) :
    Identified testRuntime (embeddedTestObject id rest) :=
  ⟨id, "MPEmbeddedTestObject", rfl, rfl, rfl, h⟩

theorem wellFormed_embeddedTestObject
    (h : WellFormed testRuntime (.properties "MPEmbeddedTestObject" (some id)) rest) :
    WellFormed testRuntime (contextOf (embeddedTestObject id rest)) (embeddedTestObject id rest) :=
  ⟨⟨"_id", rfl, .inl rfl⟩, ⟨"objectType", rfl, .inl rfl⟩, h⟩

/-- A test object with an embedded object, whose other properties are given. -/
def testTree (rest : Content)
    (h : WellFormed testRuntime
      (.properties "MPEmbeddedTestObject" (some "MPEmbeddedTestObject:1")) rest) :
    EmbeddingTree testRuntime "MPTestObject" where
  properties := .value (.name "title") (.string "A")
    (.node (.name "embeddedTestObject") (.object "embeddedTestObject" none)
      (embeddedTestObject "MPEmbeddedTestObject:1" rest) .nil)
  wellFormed := ⟨⟨"title", rfl, .inl rfl⟩, ⟨rfl, rfl, "MPEmbeddedTestObject", rfl, rfl⟩,
    identified_embeddedTestObject rest rfl, wellFormed_embeddedTestObject h, trivial⟩
  distinct := by simp [embeddedIDs, embeddedTestObject, identifier, stringAt, get?]

theorem testTree_roundTrips :
    (testTree (.value (.name "aStringTypedProperty") (.string "foobar") .nil)
      ⟨⟨_, rfl, .inl rfl⟩, trivial⟩).RoundTrips :=
  (EmbeddingTree.roundTrips_iff _ unaryCoding_roundTrips).2 ⟨by decide, trivial⟩

/-- An object in an array of the embedded object comes back as a dictionary. -/
theorem nested_testTree_not_roundTrips :
    ¬(testTree (.node (.name "embeddedArrayOfTestObjects") .array (.node (.index 0)
          (.object "embeddedArrayOfTestObjects" (some "MPEmbeddedTestObject:1"))
          (embeddedTestObject "MPEmbeddedTestObject:2" .nil) .nil) .nil)
      ⟨⟨_, true, rfl, rfl, rfl, ⟨rfl, trivial⟩, ⟨rfl, rfl⟩, identified_embeddedTestObject _ rfl,
        wellFormed_embeddedTestObject trivial, trivial⟩, trivial⟩).RoundTrips := by
  rw [EmbeddingTree.roundTrips_iff_of_load _ rfl]
  decide

end Feather.Embedding
