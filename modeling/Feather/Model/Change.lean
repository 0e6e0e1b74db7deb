import Feather.Model.EmbeddedObject

/-!
# What a change of an embedded object reaches

An `Embedded` object is referred to by its embedding object, up to the managed object.  Along such a
chain a change arrives there as one more recorded name (`cacheValue_embedded`).  `setValue_frame`
and `valueAt_writeDocument` give the values in memory and in the document after it, and `SetBySave`
is what a save changes by itself.
-/

namespace Feather.Model

open Keyed CBLModel Option Tree

/-- The object is referred to in its place, directly or as an item, and so is its embedding object.
-/
def Embedded (o : ManagedObject) : Chain → Prop
  | [] => True
  | place :: embedder =>
    (∃ b, o.properties.labelAt (path (place :: embedder)) = some (.object b)) ∧
      (place.item.isSome →
        o.properties.labelAt (path embedder ++ [place.embeddingKey]) = some .array ∨
        o.properties.labelAt (path embedder ++ [place.embeddingKey]) = some .dictionary) ∧
      Embedded o embedder

/-- The property of the managed object that holds the whole chain. -/
def rootKey : Place → Chain → Key
  | place, [] => place.embeddingKey
  | _, place :: embedder => rootKey place embedder

theorem exists_path_eq (place : Place) (embedder : Chain) :
    ∃ ks, path (place :: embedder) = rootKey place embedder :: ks := by
  induction embedder generalizing place with
  | nil => exact ⟨place.item.toList, rfl⟩
  | cons place' embedder ih =>
    obtain ⟨ks, hks⟩ := ih place'
    refine ⟨ks ++ place.path, ?_⟩
    rw [path, hks]
    rfl

/-- A change below the property that holds the chain leaves the other properties. -/
theorem get?_modifyAt_path (place : Place) (embedder : Chain) {k : Key}
    (hk : k ≠ rootKey place embedder) (f : Label → Properties → Label × Properties)
    (t : Properties) : (t.modifyAt (path (place :: embedder)) f).get? k = t.get? k := by
  obtain ⟨ks, hks⟩ := exists_path_eq place embedder
  rw [hks]
  exact get?_modifyAt_of_ne hk ks f t

theorem length_path_lt (place : Place) (embedder : Chain) :
    (path embedder).length < (path (place :: embedder)).length := by
  simp [path, Place.path]

theorem exists_nodeAt {o : ManagedObject} {ks : List Key} {label : Label}
    (h : o.properties.labelAt ks = some label) :
    ∃ properties, o.properties.nodeAt ks = some (label, properties) := by
  obtain ⟨⟨label', properties⟩, hnode, rfl⟩ := map_eq_some_iff.1 h
  exact ⟨properties, hnode⟩

section Chains

variable {o o' : ManagedObject} {place : Place} {embedder : Chain}

theorem Embedded.exists_object (h : Embedded o (place :: embedder)) :
    ∃ b properties, o.properties.nodeAt (path (place :: embedder)) = some (.object b, properties) := by
  obtain ⟨⟨b, hb⟩, -⟩ := h
  obtain ⟨properties, hnode⟩ := exists_nodeAt hb
  exact ⟨b, properties, hnode⟩

/-- Whether an object is embedded is decided by the labels on the way to it. -/
theorem Embedded.congr {chain : Chain} (h : Embedded o chain)
    (hlbs : ∀ qs, qs.length ≤ (path chain).length →
      o'.properties.labelAt qs = o.properties.labelAt qs) : Embedded o' chain := by
  induction chain with
  | nil => trivial
  | cons place embedder ih =>
    obtain ⟨⟨b, hb⟩, hitem, hemb⟩ := h
    have hlt := length_path_lt place embedder
    refine ⟨⟨b, ?_⟩, ?_, ih hemb fun qs hqs => hlbs qs (by omega)⟩
    · rw [hlbs _ le_rfl, hb]
    · intro hsome
      rw [hlbs _ (by rw [List.length_append]; simpa using hlt)]
      exact hitem hsome

/-- A change of an embedded object that leaves it an object leaves it embedded. -/
theorem Embedded.modifyAt (h : Embedded o (place :: embedder))
    {f : Label → Properties → Label × Properties}
    (hf : ∀ b properties, ∃ b', (f (.object b) properties).1 = .object b') :
    Embedded { o with properties := o.properties.modifyAt (path (place :: embedder)) f }
      (place :: embedder) := by
  obtain ⟨b, properties, hnode⟩ := h.exists_object
  have hsho : ∀ qs, qs.length < (path (place :: embedder)).length →
      (o.properties.modifyAt (path (place :: embedder)) f).labelAt qs =
        o.properties.labelAt qs := by
    intro qs hqs
    apply labelAt_modifyAt_of_not_prefix hnode
    intro hpre
    have := hpre.length_le
    omega
  obtain ⟨-, hitem, hemb⟩ := h
  refine ⟨?_, ?_, hemb.congr fun qs hqs => hsho qs ?_⟩
  · obtain ⟨b', hb'⟩ := hf b properties
    refine ⟨b', ?_⟩
    show ((o.properties.modifyAt _ f).nodeAt _).map Prod.fst = _
    rw [nodeAt_modifyAt_self hnode, map_some, hb']
  · intro hsome
    obtain ⟨i, hi⟩ := isSome_iff_exists.1 hsome
    have hlt : (path embedder ++ [place.embeddingKey]).length < (path (place :: embedder)).length := by
      simp [path, Place.path, hi]
    rw [hsho _ hlt]
    exact hitem hsome
  · have := length_path_lt place embedder
    omega

theorem Embedded.assignProperty (h : Embedded o (place :: embedder)) (property : Key)
    (value : Option Value) :
    Embedded (assignProperty (place :: embedder) property value o) (place :: embedder) :=
  h.modifyAt fun b _ => ⟨b, rfl⟩

theorem Embedded.setNeedsSave (h : Embedded o (place :: embedder)) (b : Bool) :
    Embedded (setNeedsSave (place :: embedder) b o) (place :: embedder) :=
  h.modifyAt fun _ _ => ⟨b, rfl⟩

theorem Embedded.markPropertyNeedsSave {chain : Chain} (h : Embedded o chain) (k : Key) :
    Embedded (markPropertyNeedsSave k o) chain :=
  h.congr fun _ _ => rfl

/-! ### The way up -/

theorem cacheValue_nil [CBLModel] {k : Key} {label : Label}
    (h : o.properties.labelAt [k] = some label) :
    cacheValue [] (o.properties.get? k) k o = markPropertyNeedsSave k o := by
  obtain ⟨properties, hnode⟩ := exists_nodeAt h
  rw [nodeAt_singleton] at hnode
  rw [cacheValue, CBLModel.cacheOwnValue_eq, hnode, assign, put_of_get? hnode]

theorem objectAt_singleton {k : Key} {b : Label} (h : o.properties.labelAt [k] = some b) :
    objectAt o [⟨k, none⟩] = o.properties.get? k := by
  obtain ⟨properties, hnode⟩ := exists_nodeAt h
  have hget := nodeAt_singleton.1 hnode
  rw [hget, objectAt, show path [⟨k, none⟩] = [k] from rfl, hnode]
  rfl

/-- A change arrives at the managed object as the name of the property that holds the chain; the
properties are those already in memory. -/
theorem cacheValue_embedded [CBLModel] (h : Embedded o (place :: embedder)) (value : Option Value)
    (property : Key) :
    cacheValue (place :: embedder) value property o =
      markPropertyNeedsSave (rootKey place embedder) o := by
  -- one level at a time, from the innermost object up
  induction embedder generalizing place value property with
  | nil =>
    obtain ⟨k, item⟩ := place
    obtain ⟨⟨b, hb⟩, hitem, -⟩ := h
    cases item with
    | none =>
      rw [cacheValue, objectAt_singleton hb]
      exact cacheValue_nil hb
    | some i =>
      obtain harr | hdic := hitem rfl
      · exact cacheValue_nil harr
      · exact cacheValue_nil hdic
  | cons place' embedder ih =>
    rw [cacheValue]
    split
    · exact ih h.2.2 _ _
    · exact ih h.2.2 _ _

theorem markPropertyNeedsSave_twice (k : Key) (o : ManagedObject) :
    markPropertyNeedsSave k (markPropertyNeedsSave k o) = markPropertyNeedsSave k o := by
  simp [markPropertyNeedsSave]

theorem propagate_eq [CBLModel] (h : Embedded o (place :: embedder)) :
    propagate place embedder o =
      markNeedsSave embedder (markPropertyNeedsSave (rootKey place embedder) o) := by
  have hcad := cacheValue_embedded h none place.embeddingKey
  rw [cacheValue] at hcad
  rw [propagate]
  simp only [hcad]
  cases embedder with
  | nil => rw [if_pos rfl, rootKey, markPropertyNeedsSave_twice]
  | cons place' embedder => rw [if_neg (List.cons_ne_nil _ _)]

/-! ### The values in memory -/

theorem valueAt_setNeedsSave (h : Embedded o (place :: embedder)) (b : Bool) (qs : List Key) :
    (setNeedsSave (place :: embedder) b o).properties.valueAt qs = o.properties.valueAt qs := by
  obtain ⟨b', properties, hnode⟩ := h.exists_object
  rw [setNeedsSave, valueAt_modifyAt hnode]
  split
  · rename_i hpre
    obtain ⟨rs, rfl⟩ := hpre
    rw [List.drop_left, valueAt_append hnode]
  · rfl

theorem valueAt_assignProperty (h : Embedded o (place :: embedder)) {property : Key}
    (hpl : ∀ label entries, valueForKey o (place :: embedder) property ≠ some (.node label entries))
    (value : Option Plain) (qs : List Key) :
    (assignProperty (place :: embedder) property (value.map .value) o).properties.valueAt qs =
      if qs = path (place :: embedder) ++ [property] then value else o.properties.valueAt qs := by
  obtain ⟨b, properties, hnode⟩ := h.exists_object
  have hplain' : ∀ label entries, properties.get? property ≠ some (.node label entries) := by
    simpa [valueForKey, propertiesOf, hnode] using hpl
  rw [assignProperty, valueAt_modifyAt hnode]
  split
  · rename_i hpre
    obtain ⟨rs, rfl⟩ := hpre
    rw [valueAt_assign_value hplain', valueAt_append hnode]
    simp
  · rename_i hpre
    rw [if_neg]
    rintro rfl
    exact hpre (List.prefix_append _ _)

/-- Marking an object and its embedding objects changes flags only. -/
theorem markNeedsSave_frame {chain : Chain} (h : Embedded o chain) :
    (markNeedsSave chain o).changedNames = o.changedNames ∧
      (markNeedsSave chain o).document = o.document ∧
      (markNeedsSave chain o).needsSave = true ∧
      ∀ qs, (markNeedsSave chain o).properties.valueAt qs = o.properties.valueAt qs := by
  induction chain generalizing o with
  | nil => exact ⟨rfl, rfl, rfl, fun _ => rfl⟩
  | cons place embedder ih =>
    obtain ⟨hnam, hdoc, hflag, hvls⟩ := ih (h.setNeedsSave true).2.2
    refine ⟨hnam, hdoc, hflag, fun qs => ?_⟩
    rw [markNeedsSave, hvls, valueAt_setNeedsSave h]

theorem get?_markNeedsSave {k : Key} (hk : k ≠ rootKey place embedder) (o : ManagedObject) :
    (markNeedsSave embedder o).properties.get? k = o.properties.get? k := by
  induction embedder generalizing place o with
  | nil => rfl
  | cons place' embedder ih =>
    rw [markNeedsSave, ih hk]
    exact get?_modifyAt_path place' embedder hk _ _

/-- What `setValue:ofProperty:` leaves when the value is a new one. -/
theorem setValue_eq [CBLModel] (h : Embedded o (place :: embedder))
    {value : Option Value} {property : Key}
    (hnew : value = none ∨ valueForKey o (place :: embedder) property ≠ value) :
    setValue place embedder value property o =
      markNeedsSave embedder (markPropertyNeedsSave (rootKey place embedder) (if value.isSome then
          setNeedsSave (place :: embedder) true
            (assignProperty (place :: embedder) property value o)
        else assignProperty (place :: embedder) property value o)) := by
  have hgo : ¬ (value.isSome ∧ valueForKey o (place :: embedder) property = value) := by
    rintro ⟨hsome, hsame⟩
    obtain rfl | hne := hnew
    · simp at hsome
    · exact hne hsame
  rw [setValue, if_neg hgo]
  apply propagate_eq
  split
  · exact (h.assignProperty property value).setNeedsSave true
  · exact h.assignProperty property value

theorem get?_setValue [CBLModel] (h : Embedded o (place :: embedder))
    {value : Option Value} {property k : Key}
    (hnew : value = none ∨ valueForKey o (place :: embedder) property ≠ value)
    (hk : k ≠ rootKey place embedder) :
    (setValue place embedder value property o).properties.get? k = o.properties.get? k := by
  rw [setValue_eq h hnew, get?_markNeedsSave hk]
  have hassigned := get?_modifyAt_path place embedder hk
    (fun label properties => (label, properties.assign property value)) o.properties
  split
  · exact (get?_modifyAt_path place embedder hk _ _).trans hassigned
  · exact hassigned

theorem setValue_frame [CBLModel] (h : Embedded o (place :: embedder)) {value : Option Plain}
    {property : Key}
    (hpl : ∀ label entries, valueForKey o (place :: embedder) property ≠ some (.node label entries))
    (hnew : value = none ∨ valueForKey o (place :: embedder) property ≠ value.map .value) :
    let o' := setValue place embedder (value.map .value) property o
    o'.changedNames = o.changedNames.insert (rootKey place embedder) ∧
      o'.document = o.document ∧ o'.needsSave = true ∧
      ∀ qs, o'.properties.valueAt qs =
        if qs = path (place :: embedder) ++ [property] then value else o.properties.valueAt qs := by
  intro o'
  have hasg := h.assignProperty property (value.map .value)
  have ho' : o' = _ := setValue_eq h (by simpa using hnew)
  cases value with
  | none =>
    obtain ⟨hnam, hdoc, hflag, hvls⟩ :=
      markNeedsSave_frame (hasg.2.2.markPropertyNeedsSave (rootKey place embedder))
    rw [ho']
    refine ⟨hnam, hdoc, hflag, fun qs => (hvls qs).trans ?_⟩
    exact valueAt_assignProperty h hpl none qs
  | some v =>
    have hmkd := hasg.setNeedsSave true
    obtain ⟨hnam, hdoc, hflag, hvls⟩ :=
      markNeedsSave_frame (hmkd.2.2.markPropertyNeedsSave (rootKey place embedder))
    rw [ho']
    refine ⟨hnam, hdoc, hflag, fun qs => (hvls qs).trans ?_⟩
    refine (valueAt_setNeedsSave hasg true qs).trans ?_
    exact valueAt_assignProperty h hpl (some v) qs

end Chains

/-! ### The values in the document -/

attribute [local simp] externalizeEntries

theorem get?_externalizeEntries (t : Properties) (k : Key) :
    (externalizeEntries false t).get? k = (t.get? k).map externalizePropertyValue := by
  induction t with
  | nil => rfl
  | value k0 v rest ih =>
    by_cases h : k0 = k
    · simp [get?, h, externalizePropertyValue]
    · simp [get?, h, ih]
  | node k0 label entries rest _ ih =>
    by_cases h : k0 = k
    · cases label <;> simp [get?, h, externalizePropertyValue]
    · cases label <;> simp [get?, h, ih]

/-- Externalizing changes what the nodes are, not the values in them. -/
theorem valueAt_externalizeEntries (b : Bool) (t : Properties) (qs : List Key) :
    (externalizeEntries b t).valueAt qs = t.valueAt qs := by
  induction t generalizing b qs with
  | nil => rfl
  | value k v rest ih =>
    cases qs with
    | nil => rfl
    | cons q qs =>
      have hrest := ih b (q :: qs)
      rw [valueAt_cons, valueAt_cons] at hrest
      rw [valueAt_cons, valueAt_cons, externalizeEntries, get?, get?]
      split
      · rfl
      · exact hrest
  | node k label entries rest ihe ih =>
    cases qs with
    | nil => rfl
    | cons q qs =>
      have hrest := ih b (q :: qs)
      rw [valueAt_cons, valueAt_cons] at hrest
      have hnode : ∃ label' entries', externalizeEntries b (.node k label entries rest) =
          .node k label' entries' (externalizeEntries b rest) ∧
          ∀ qs, entries'.valueAt qs = entries.valueAt qs := by
        cases label with
        | object needsSave => exact ⟨_, _, rfl, ihe false⟩
        | array => cases b <;> exact ⟨_, _, rfl, by simp [ihe]⟩
        | dictionary => cases b <;> exact ⟨_, _, rfl, by simp [ihe]⟩
      obtain ⟨label', entries', heq, hent⟩ := hnode
      rw [valueAt_cons, valueAt_cons, heq, get?, get?]
      split
      · exact hent qs
      · exact hrest

/-- A written document has the values in memory for the changed names. -/
theorem valueAt_writeDocument [CBLModel] (o : ManagedObject) (k : Key) (qs : List Key) :
    (writeDocument o).document.valueAt (k :: qs) =
      if k ∈ o.changedNames then o.properties.valueAt (k :: qs)
      else o.document.valueAt (k :: qs) := by
  have hget := get?_document o k
  split
  · rename_i hk
    rw [if_pos hk, ← get?_externalizeEntries] at hget
    rw [← valueAt_externalizeEntries false o.properties]
    exact valueAt_congr hget qs
  · rename_i hk
    rw [if_neg hk] at hget
    exact valueAt_congr hget qs

/-! ### What a save sets by itself -/

/-- The properties that a save keeps, in the order it looks at them, with the values it gives. -/
def ownValues (context : SaveContext) (o : ManagedObject) : List (Key × Option Plain) :=
  let created := (o.properties.get? (.name "createdAt")).isSome
  [(.name "createdAt", if created then none else some (.number context.now)),
    (.name "updatedAt", if o.needsSave || !created then some (.number context.now) else none),
    (.name "sessionID", context.sessionID.map .string),
    (.name "cloudKitChangeTag",
      if (o.properties.get? (.name "cloudKitChangeTag")).isSome then
        context.cloudKitChangeTag.map .string
      else none)]

/-- What a save sets itself. -/
def bookkeepingKeys : List Key :=
  [.name "createdAt", .name "updatedAt", .name "sessionID", .name "cloudKitChangeTag"]

/-- The save gives the property another value, which it records as changed. -/
def SetBySave (context : SaveContext) (o : ManagedObject) (k : Key) : Prop :=
  ∃ v, (k, some v) ∈ ownValues context o ∧ o.properties.get? k ≠ some (.value v)

/-- One property after the other gets its value. -/
def setOwnValues [CBLModel] : List (Key × Option Plain) → ManagedObject → ManagedObject
  | [], o => o
  | (_, none) :: values, o => setOwnValues values o
  | (k, some v) :: values, o => setOwnValues values (setOwnValue k v o)

section Own

variable [CBLModel] {o : ManagedObject} {k k' : Key} {v : Plain}

theorem setOwnValue_of_ne (h : o.properties.get? k ≠ some (.value v)) :
    setOwnValue k v o = { o with
      properties := o.properties.put k (.value v)
      changedNames := o.changedNames.insert k
      needsSave := true } := by
  rw [setOwnValue_eq, if_neg h, cacheOwnValue_eq]
  rfl

theorem setOwnValue_document : (setOwnValue k v o).document = o.document := by
  rw [setOwnValue_eq, cacheOwnValue_eq]
  split_ifs <;> rfl

theorem get?_setOwnValue_of_ne (h : k' ≠ k) :
    (setOwnValue k v o).properties.get? k' = o.properties.get? k' := by
  by_cases hset : o.properties.get? k = some (.value v)
  · rw [setOwnValue_eq, if_pos hset]
  · rw [setOwnValue_of_ne hset]
    exact (get?_put ..).trans (if_neg h)

theorem mem_changedNames_setOwnValue : k' ∈ (setOwnValue k v o).changedNames ↔
    k' ∈ o.changedNames ∨ k' = k ∧ o.properties.get? k ≠ some (.value v) := by
  by_cases hset : o.properties.get? k = some (.value v)
  · simp [setOwnValue_eq, hset]
  · rw [setOwnValue_of_ne hset, List.mem_insert_iff, or_comm]
    simp [hset]

/-- A property is changed exactly if it is given a value that it does not have. -/
theorem setOwnValues_spec (values : List (Key × Option Plain))
    (hkeys : (values.map Prod.fst).Nodup) (o : ManagedObject) (k : Key) :
    (setOwnValues values o).document = o.document ∧
      (k ∈ (setOwnValues values o).changedNames ↔ k ∈ o.changedNames ∨
        ∃ v, (k, some v) ∈ values ∧ o.properties.get? k ≠ some (.value v)) ∧
      ((¬∃ v, (k, some v) ∈ values ∧ o.properties.get? k ≠ some (.value v)) →
        (setOwnValues values o).properties.get? k = o.properties.get? k) := by
  induction values generalizing o with
  | nil => simp [setOwnValues]
  | cons kv values ih =>
    obtain ⟨k₁, v₁⟩ := kv
    rw [List.map_cons, List.nodup_cons] at hkeys
    cases v₁ with
    | none => simpa [setOwnValues] using ih hkeys.2 o
    | some v₁ =>
      obtain ⟨hdoc, hnames, hget⟩ := ih hkeys.2 (setOwnValue k₁ v₁ o)
      rw [setOwnValues, hdoc, setOwnValue_document, hnames, mem_changedNames_setOwnValue]
      refine ⟨rfl, ?_⟩
      by_cases hk : k = k₁
      · -- the other values are of other properties
        subst hk
        have hrest (v : Plain) : (k, some v) ∉ values := fun hmem =>
          hkeys.1 (List.mem_map.2 ⟨_, hmem, rfl⟩)
        simp only [hrest, false_and, exists_false, not_false_eq_true, true_implies] at hget ⊢
        simp only [List.mem_cons, Prod.mk.injEq, some.injEq, true_and, hrest, or_false,
          exists_eq_left, not_not]
        refine fun hset => hget.trans ?_
        rw [setOwnValue_eq, if_pos hset]
      · rw [get?_setOwnValue_of_ne hk] at hget ⊢
        simpa [hk] using hget

theorem setOwnValues_append (values rest : List (Key × Option Plain)) (o : ManagedObject) :
    setOwnValues (values ++ rest) o = setOwnValues rest (setOwnValues values o) := by
  induction values generalizing o with
  | nil => rfl
  | cons kv values ih =>
    obtain ⟨k, _ | v⟩ := kv
    · exact ih o
    · exact ih (setOwnValue k v o)

theorem updateTimestamps_eq (context : SaveContext) (o : ManagedObject) :
    updateTimestamps context.now o = setOwnValues ((ownValues context o).take 2) o := by
  unfold updateTimestamps ownValues
  cases hcr : o.properties.get? (.name "createdAt") with
  | some created => cases hns : o.needsSave <;> simp [hns, setOwnValues]
  | none =>
    have hns : (setOwnValue (.name "createdAt") (.number context.now) o).needsSave = true := by
      rw [setOwnValue_of_ne (by simp [hcr])]
    simp [setOwnValues, hns]

/-- A save sets its own properties before it writes. -/
theorem prepareSave_eq (context : SaveContext) (o : ManagedObject) :
    prepareSave context o = setOwnValues (ownValues context o) o := by
  have hses : trackSession context.sessionID (updateTimestamps context.now o) =
      setOwnValues ((ownValues context o).take 3) o := by
    rw [updateTimestamps_eq, show (ownValues context o).take 3 = (ownValues context o).take 2 ++
      [(.name "sessionID", context.sessionID.map .string)] from rfl, setOwnValues_append]
    cases context.sessionID <;> rfl
  -- the change tag is as it was until now
  have hget := (setOwnValues_spec ((ownValues context o).take 3)
    (by decide : (bookkeepingKeys.take 3).Nodup) o (.name "cloudKitChangeTag")).2.2
    (by simp [ownValues])
  rw [← List.take_append_drop 3 (ownValues context o), setOwnValues_append, prepareSave, hses]
  unfold refreshChangeTag
  rw [hget]
  simp only [ownValues, List.drop_succ_cons, List.drop_zero]
  cases context.cloudKitChangeTag <;> cases o.properties.get? (.name "cloudKitChangeTag") <;> rfl

theorem prepareSave_spec (context : SaveContext) (o : ManagedObject) (k : Key) :
    (prepareSave context o).document = o.document ∧
      (k ∈ (prepareSave context o).changedNames ↔ k ∈ o.changedNames ∨ SetBySave context o k) ∧
      (¬SetBySave context o k →
        (prepareSave context o).properties.get? k = o.properties.get? k) := by
  rw [prepareSave_eq]
  exact setOwnValues_spec (ownValues context o) (by decide : bookkeepingKeys.Nodup) o k

omit [CBLModel] in
theorem SetBySave.mem_bookkeepingKeys {context : SaveContext} (h : SetBySave context o k) :
    k ∈ bookkeepingKeys := by
  obtain ⟨v, hmem, -⟩ := h
  have hkey : k ∈ (ownValues context o).map Prod.fst := List.mem_map.2 ⟨_, hmem, rfl⟩
  exact hkey

end Own

end Feather.Model
