import Feather.Embedding.RoundTrip
import Feather.Embedding.Setters

/-!
# Histories of embedded setters

Objects are made, setters of the managed object are called, properties of embedded objects are set,
and the managed object is deleted.
-/

namespace Feather.Embedding

open Keyed Program Async List Option

variable {key property : String} {ref : ℕ} {r : Option ℕ} {v : Given} {values : List Given}

namespace Holder

/-- A consistent object stays so, and no embedded object is lost. -/
def Keeps (h h' : Holder) : Prop :=
  Consistent h → Consistent h' ∧ h.objects.length ≤ h'.objects.length

theorem Keeps.refl (h : Holder) : Keeps h h := fun hh => ⟨hh, le_rfl⟩

theorem Keeps.trans {h h' h'' : Holder} (first : Keeps h h') (second : Keeps h' h'') :
    Keeps h h'' := by
  intro hh
  obtain ⟨hh', hle⟩ := first hh
  obtain ⟨hh'', hle'⟩ := second hh'
  exact ⟨hh'', hle.trans hle'⟩

section

variable {runtime : Runtime} {h h' : Holder}

/-! ### Making objects -/

theorem keeps_initWithDictionary {dictionary : Content}
    (hexec : exec (initWithDictionary dictionary key) h = some (.ok (ref, h'))) : Keeps h h' := by
  unfold initWithDictionary at hexec
  split at hexec
  · next id className hid htype =>
    split at hexec
    · simp only [exec_bind, exec_get, andThen_ok] at hexec
      split at hexec
      · cases hexec
        exact Keeps.refl _
      · cases hexec
        exact fun hh => ⟨hh.withNew (o := ⟨key, dictionary⟩) hid, by simp⟩
    · cases hexec
  · cases hexec

theorem keeps_embeddedObjectWithDictionary {dictionary : Content}
    (hexec : exec (embeddedObjectWithDictionary runtime dictionary key) h = some (.ok (r, h'))) :
    Keeps h h' := by
  unfold embeddedObjectWithDictionary at hexec
  split at hexec
  · cases hexec
    exact Keeps.refl _
  · cases hexec
    exact Keeps.refl _
  · cases hexec
  · simp only [exec_bind, exec_get, andThen_ok] at hexec
    split at hexec
    · cases hexec
      exact Keeps.refl _
    · rw [map_eq_pure_bind] at hexec
      obtain ⟨ref, h1, hinit, hpure⟩ := exec_bind_eq_ok.1 hexec
      cases hpure
      exact keeps_initWithDictionary hinit

theorem keeps_embeddedObjectWithJSONString {text : String}
    (hexec : exec (embeddedObjectWithJSONString runtime text key) h = some (.ok (r, h'))) :
    Keeps h h' := by
  unfold embeddedObjectWithJSONString at hexec
  split at hexec
  · cases hexec
    exact Keeps.refl _
  · split at hexec
    · cases hexec
      exact Keeps.refl _
    · cases hexec
      exact Keeps.refl _
    · cases hexec
    · rw [map_eq_pure_bind] at hexec
      obtain ⟨ref, h1, hinit, hpure⟩ := exec_bind_eq_ok.1 hexec
      cases hpure
      exact keeps_initWithDictionary hinit
  · cases hexec

theorem keeps_arrayItem (hexec : exec (arrayItem runtime property v) h = some (.ok (r, h'))) :
    Keeps h h' := by
  cases v with
  | object ref =>
    cases hexec
    exact Keeps.refl _
  | dictionary entries => exact keeps_embeddedObjectWithDictionary hexec
  | string text => exact keeps_embeddedObjectWithJSONString hexec

theorem keeps_dictionaryItem {whole : Content}
    (hexec : exec (dictionaryItem runtime whole property v) h = some (.ok (r, h'))) :
    Keeps h h' := by
  cases v with
  | object ref =>
    cases hexec
    exact Keeps.refl _
  | dictionary entries => exact keeps_embeddedObjectWithDictionary hexec
  | string text => exact keeps_embeddedObjectWithJSONString hexec

/-! ### The cache -/

theorem keeps_cacheEmbeddedObjectByIdentifier
    (hexec : exec (cacheEmbeddedObjectByIdentifier ref) h = some (.ok ((), h'))) :
    Keeps h h' ∧ ref < h'.objects.length := by
  simp only [cacheEmbeddedObjectByIdentifier, exec_bind, exec_get, andThen_ok] at hexec
  split at hexec
  · cases hexec
  · next id hid =>
    obtain ⟨content, hcon, -⟩ := bind_eq_some_iff.1 hid
    have hlt := lt_of_contentAt hcon
    split at hexec
    · rw [exec_ite] at hexec
      split at hexec
      · cases hexec
        exact ⟨Keeps.refl _, hlt⟩
      · cases hexec
    · cases hexec
      exact ⟨fun hh => ⟨hh.withCached hid, le_rfl⟩, hlt⟩

theorem lookup_filter_ne_eq_some {id other : String} {cache : List (String × ℕ)}
    (hlk : (cache.filter fun x => x.1 ≠ id).lookup other = some ref) :
    cache.lookup other = some ref := by
  have hmem : ∀ {items : List (String × ℕ)}, items.lookup other = some ref → (other, ref) ∈ items := by
    intro items hit
    obtain ⟨l1, l2, rfl, -⟩ := lookup_eq_some_iff.1 hit
    simp
  have hne : other ≠ id := by simpa using (mem_filter.1 (hmem hlk)).2
  induction cache with
  | nil => cases hlk
  | cons x cache ih =>
    by_cases hx : other = x.1
    · rw [filter_cons_of_pos (by simpa [← hx] using hne), lookup_cons, hx,
        beq_self_eq_true] at hlk
      rw [lookup_cons, hx, beq_self_eq_true]
      exact hlk
    · rw [lookup_cons, beq_false_of_ne hx]
      refine ih ?_
      rw [filter_cons] at hlk
      split at hlk
      · rwa [lookup_cons, beq_false_of_ne hx] at hlk
      · exact hlk

theorem keeps_removeEmbeddedObjectFromByIdentifierCache
    (hexec : exec (removeEmbeddedObjectFromByIdentifierCache ref) h = some (.ok ((), h'))) :
    Keeps h h' := by
  simp only [removeEmbeddedObjectFromByIdentifierCache, exec_bind, exec_get, andThen_ok] at hexec
  split at hexec
  · cases hexec
  · rw [exec_ite] at hexec
    split at hexec
    · cases hexec
      exact fun hh => ⟨⟨fun other ref' hlk => hh.cache other ref' (lookup_filter_ne_eq_some hlk),
        hh.properties⟩, le_rfl⟩
    · cases hexec

/-! ### The setters -/

theorem keeps_setValue {value : Option Stored}
    (hval : ∀ v ∈ value, ∀ ref ∈ v.refs, ref < h.objects.length)
    (hexec : exec (setValue value property) h = some (.ok ((), h'))) : Keeps h h' := by
  simp only [setValue, exec_bind, exec_get, andThen_ok] at hexec
  split at hexec
  · cases hexec
    exact Keeps.refl _
  · cases hexec
    refine fun hh => ⟨⟨hh.cache, fun other v hmem ref hr => ?_⟩, le_rfl⟩
    rcases mem_append.1 hmem with hmem | hmem
    · obtain ⟨v', hv', heq⟩ := map_eq_some_iff.1 (mem_toList.1 hmem)
      cases heq
      exact hval _ hv' ref hr
    · exact hh.properties other v (mem_filter.1 hmem).1 ref hr

theorem keeps_existingObject {existing : Option ℕ}
    (hexec : exec (existingObject property) h = some (.ok (existing, h'))) : Keeps h h' := by
  simp only [existingObject, exec_bind, exec_get, andThen_ok] at hexec
  split at hexec
  · cases hexec
    exact Keeps.refl _
  · cases hexec
    exact Keeps.refl _
  · cases hexec

theorem keeps_uncacheReplaced {existing value : Option ℕ}
    (hexec : exec (uncacheReplaced existing value) h = some (.ok ((), h'))) : Keeps h h' := by
  rw [uncacheReplaced] at hexec
  split at hexec
  · cases existing with
    | none =>
      cases hexec
      exact Keeps.refl _
    | some ref => exact keeps_removeEmbeddedObjectFromByIdentifierCache hexec
  · cases hexec
    exact Keeps.refl _

theorem keeps_cacheValue {value : Option ℕ}
    (hexec : exec (value.forM cacheEmbeddedObjectByIdentifier) h = some (.ok ((), h'))) :
    Keeps h h' ∧ ∀ ref ∈ value, ref < h'.objects.length := by
  cases value with
  | none =>
    cases hexec
    exact ⟨Keeps.refl _, by simp⟩
  | some ref =>
    obtain ⟨hkps, hlt⟩ := keeps_cacheEmbeddedObjectByIdentifier hexec
    exact ⟨hkps, fun r hr => some.inj hr ▸ hlt⟩

theorem keeps_setEmbeddedObject {value : Option ℕ}
    (hexec : exec (setEmbeddedObject value property) h = some (.ok ((), h'))) : Keeps h h' := by
  obtain ⟨existing, h1, hexi, hrest⟩ := exec_bind_eq_ok.1 hexec
  obtain ⟨_, h2, hunc, hrest⟩ := exec_bind_eq_ok.1 hrest
  obtain ⟨_, h3, hca, hrest⟩ := exec_bind_eq_ok.1 hrest
  rw [exec_get_bind] at hrest
  obtain ⟨hcad, hlt⟩ := keeps_cacheValue hca
  have hkps := ((keeps_existingObject hexi).trans (keeps_uncacheReplaced hunc)).trans hcad
  split at hrest
  · refine hkps.trans (keeps_setValue (fun v hv ref hr => ?_) hrest)
    obtain ⟨ref', hmem, rfl⟩ := map_eq_some_iff.1 hv
    rw [Stored.refs, mem_singleton] at hr
    exact hr ▸ hlt ref' hmem
  · cases hrest

theorem keeps_cachedItem {item : Given → Setting (Option ℕ)}
    (hitem : ∀ v h r h', exec (item v) h = some (.ok (r, h')) → Keeps h h')
    (hexec : exec (cachedItem item v) h = some (.ok (ref, h'))) :
    Keeps h h' ∧ ref < h'.objects.length := by
  obtain ⟨r, h1, hfst, hrest⟩ := exec_bind_eq_ok.1 hexec
  cases r with
  | none => cases hrest
  | some ref' =>
    obtain ⟨_, h2, hca, hpure⟩ := exec_bind_eq_ok.1 hrest
    cases hpure
    obtain ⟨hkps, hlt⟩ := keeps_cacheEmbeddedObjectByIdentifier hca
    exact ⟨(hitem v h _ h1 hfst).trans hkps, hlt⟩

/-- The loop: an object made early is still there at its end. -/
theorem keeps_eachItem {item : Given → Setting (Option ℕ)} {refs : List ℕ}
    (hitem : ∀ v h r h', exec (item v) h = some (.ok (r, h')) → Keeps h h') (hh : Consistent h)
    (hexec : exec (eachItem item values) h = some (.ok (refs, h'))) :
    Consistent h' ∧ h.objects.length ≤ h'.objects.length ∧ ∀ ref ∈ refs, ref < h'.objects.length := by
  induction values generalizing h refs with
  | nil =>
    cases hexec
    exact ⟨hh, le_rfl, by simp⟩
  | cons v values ih =>
    obtain ⟨ref, h1, hfst, hrest⟩ := exec_bind_eq_ok.1 hexec
    obtain ⟨refs', h2, hloop, hpure⟩ := exec_bind_eq_ok.1 hrest
    cases hpure
    obtain ⟨hkps, hlt⟩ := keeps_cachedItem hitem hfst
    obtain ⟨hh1, hle⟩ := hkps hh
    obtain ⟨hh', hle', hrefs⟩ := ih hh1 hloop
    refine ⟨hh', hle.trans hle', ?_⟩
    rw [forall_mem_cons]
    exact ⟨lt_of_lt_of_le hlt hle', hrefs⟩

theorem keeps_setCollection {item : Given → Setting (Option ℕ)} {collection : List ℕ → Stored}
    (hitem : ∀ v h r h', exec (item v) h = some (.ok (r, h')) → Keeps h h')
    (hcol : ∀ refs, ∀ ref ∈ (collection refs).refs, ref ∈ refs)
    (hexec : exec (setCollection item values collection property) h = some (.ok ((), h'))) :
    Keeps h h' := by
  intro hh
  obtain ⟨refs, h1, hloop, hset⟩ := exec_bind_eq_ok.1 hexec
  obtain ⟨hh1, hle, hrefs⟩ := keeps_eachItem hitem hh hloop
  have hval : ∀ v ∈ some (collection refs), ∀ ref ∈ v.refs, ref < h1.objects.length := by
    intro v hv ref hr
    cases hv
    exact hrefs ref (hcol refs ref hr)
  obtain ⟨hh', hle'⟩ := keeps_setValue hval hset hh1
  exact ⟨hh', hle.trans hle'⟩

theorem keeps_setEmbeddedObjectArray
    (hexec : exec (setEmbeddedObjectArray runtime values property) h = some (.ok ((), h'))) :
    Keeps h h' := by
  refine keeps_setCollection (fun _ _ _ _ => keeps_arrayItem) ?_ hexec
  exact fun _ _ hr => hr

theorem keeps_setEmbeddedObjectDictionary {values : List (String × Given)}
    (hexec : exec (setEmbeddedObjectDictionary runtime values property) h = some (.ok ((), h'))) :
    Keeps h h' := by
  rw [setEmbeddedObjectDictionary, exec_get_bind] at hexec
  refine keeps_setCollection (fun _ _ _ _ => keeps_dictionaryItem) (fun refs ref hr => ?_) hexec
  obtain ⟨x, hx, rfl⟩ := mem_map.1 hr
  exact (of_mem_zip hx).2

end

/-! ### Histories -/

/-- A call on the managed object or an embedded one.  To read one is to `create` it. -/
inductive Call
  | create (dictionary : Content) (key : String)
  /-- An embedded object is made elsewhere, so that it is not in the cache. -/
  | createElsewhere (o : EmbeddedObject)
  | setEmbeddedObject (value : Option ℕ) (property : String)
  | setEmbeddedObjectArray (values : List Given) (property : String)
  | setEmbeddedObjectDictionary (values : List (String × Given)) (property : String)
  /-- `setValue:ofProperty:` of an embedded object, for a property other than its identifier. -/
  | setProperty (ref : ℕ) (key : String) (hkey : key ≠ "_id") (value : Option Value)
  | delete

/-- `setValue:ofProperty:` of an embedded object. -/
def setProperty (ref : ℕ) (key : String) (value : Option Value) : Setting Unit :=
  modify fun h => { h with objects := h.objects.modify ref fun o =>
    { o with properties := o.properties.assign (.name key) value } }

/-- What a call does. -/
def Call.program (runtime : Runtime) : Call → Setting Unit
  | create dictionary key => do
    let _ ← initWithDictionary dictionary key
  | createElsewhere o => modify fun h => { h with objects := h.objects ++ [o] }
  | setEmbeddedObject value property => Holder.setEmbeddedObject value property
  | setEmbeddedObjectArray values property => Holder.setEmbeddedObjectArray runtime values property
  | setEmbeddedObjectDictionary values property =>
    Holder.setEmbeddedObjectDictionary runtime values property
  | setProperty ref key _ value => Holder.setProperty ref key value
  | delete => modify fun h => { h with isDeleted := true }

/-- The managed object after a call that returned. -/
def step (runtime : Runtime) (call : Call) (h : Holder) : Option Holder :=
  match exec (call.program runtime) h with
  | some (.ok ((), h')) => some h'
  | _ => none

section

variable {runtime : Runtime} {h h' : Holder}

theorem identifier_assign (hkey : key ≠ "_id") (value : Option Value) (content : Content) :
    identifier (content.assign (.name key) value) = identifier content := by
  unfold identifier stringAt
  rw [Tree.get?_assign, if_neg (by simpa using hkey.symm)]

theorem keeps_setProperty (hkey : key ≠ "_id") {value : Option Value}
    (hexec : exec (setProperty ref key value) h = some (.ok ((), h'))) : Keeps h h' := by
  cases hexec
  refine fun hh => ⟨⟨fun id other hlk => ?_, fun property v hmem r hr => ?_⟩, by simp⟩
  · rw [← hh.cache id other hlk]
    by_cases hoth : other = ref
    · subst hoth
      cases ho : h.objects[other]? with
      | none => simp [contentAt, ho]
      | some o => simp [contentAt, ho, identifier_assign hkey]
    · simp [contentAt, Ne.symm hoth]
  · simpa using hh.properties property v hmem r hr

theorem keeps_createElsewhere (o : EmbeddedObject) (h : Holder) :
    Keeps h { h with objects := h.objects ++ [o] } := by
  refine fun hh => ⟨⟨fun id ref hlk => ?_, fun property v hmem ref hr => ?_⟩, by simp⟩
  · obtain ⟨content, hcon, -⟩ := bind_eq_some_iff.1 (hh.cache id ref hlk)
    rw [← hh.cache id ref hlk, contentAt, getElem?_append_left (lt_of_contentAt hcon)]
    rfl
  · have hlt := hh.properties property v hmem ref hr
    simp only [length_append]
    omega

theorem keeps_step {call : Call} (hstep : step runtime call h = some h') : Keeps h h' := by
  unfold step at hstep
  split at hstep
  · next h1 hexec =>
    cases hstep
    cases call with
    | create dictionary key =>
      obtain ⟨ref, h2, hinit, hpure⟩ := exec_bind_eq_ok.1 hexec
      cases hpure
      exact keeps_initWithDictionary hinit
    | createElsewhere o =>
      cases hexec
      exact keeps_createElsewhere o h
    | setEmbeddedObject value property => exact keeps_setEmbeddedObject hexec
    | setEmbeddedObjectArray values property => exact keeps_setEmbeddedObjectArray hexec
    | setEmbeddedObjectDictionary values property => exact keeps_setEmbeddedObjectDictionary hexec
    | setProperty ref key hkey value => exact keeps_setProperty hkey hexec
    | delete =>
      cases hexec
      exact fun hh => ⟨⟨hh.cache, hh.properties⟩, le_rfl⟩
  · cases hstep

theorem consistent_new : Consistent new := ⟨by simp [new], by simp [new]⟩

/-- After every history of calls the managed object is consistent. -/
theorem consistent_of_run {history : List Call} (hrun : run (step runtime) history new = some h) :
    Consistent h :=
  run_invariant (P := Consistent) (fun _ _ _ hh hstep => (keeps_step hstep hh).1) consistent_new hrun

/-- In every history the getters of collections give only objects that were made, and each cached
object has the identifier that it is cached under. -/
theorem consistent_throughout (runtime : Runtime) (history : List Call) :
    Throughout (step runtime) (fun h => Consistent h ∧ ∀ property,
      (∀ refs, getEmbeddedObjectArrayProperty property h = some refs →
        ∀ ref ∈ refs, ref < h.objects.length) ∧
      ∀ items, getEmbeddedObjectDictionaryProperty property h = some items →
        ∀ k ref, items.lookup k = some ref → ref < h.objects.length) history new := by
  refine throughout_of_run fun past h hrun => ?_
  have hh := consistent_of_run hrun
  exact ⟨hh, fun _ => ⟨fun _ hget => hh.lt_of_arrayItems hget,
    fun _ hget _ _ hk => hh.lt_of_dictionaryItems hget hk⟩⟩

/-- After any history, for items with different identifiers, a setter and its getter agree exactly
if each item is acceptable, and for dictionaries if no item is a dictionary. -/
theorem sets_iff {runtime : Runtime}
    (hclasses : ∀ text entries, runtime.coding.jsonOfText text = some (.node .dictionary entries) →
      runtime.classKind text = .unknown)
    {history : List Call} {h : Holder} (hrun : run (step runtime) history new = some h)
    (property : String) :
    (∀ values : List Given, (∀ v ∈ values, WellFormedItem runtime h v) →
      (values.map (idOf runtime.coding h)).Nodup →
        (SetsArray runtime h values property ↔ ArrayAcceptable runtime h values property)) ∧
    ∀ values : List (String × Given), (values.map Prod.fst).Nodup →
      (∀ x ∈ values, WellFormedItem runtime h x.2) →
      (values.map fun x => idOf runtime.coding h x.2).Nodup →
        (SetsDictionary runtime h values property ↔
          DictionaryAcceptable runtime h values property) := by
  have hh := consistent_of_run hrun
  constructor
  · intro values hit hdis
    exact setsArray_iff ⟨hh, hit, hdis⟩ property
  · intro values hkeys hit hdis
    refine setsDictionary_iff hclasses ⟨hh, ?_, ?_⟩ hkeys property
    · simpa only [List.forall_mem_map] using hit
    · rwa [List.map_map]

end

/-! ### Test objects -/

/-- A test object with a title, as it is given to the setters. -/
def titled (id title : String) : Content :=
  embeddedTestObject id (.value (.name "title") (.string title) .nil)

/-- The text of a test object. -/
def titledText : String :=
  "\x7b\"_id\":\"MPEmbeddedTestObject:2\",\"objectType\":\"MPEmbeddedTestObject\",\"title\":\"B\"\x7d"

/-- The test classes, with a reader of that text. -/
def textRuntime : Runtime := { testRuntime with
  coding := { unaryCoding with
    jsonOfText text := if text = titledText then
      some (.node .dictionary (titled "MPEmbeddedTestObject:2" "B")) else none } }

/-- An object was made and set alone. -/
def firstObject : Holder where
  objects := [⟨"embeddedTestObject", titled "MPEmbeddedTestObject:1" "A"⟩]
  cache := [("MPEmbeddedTestObject:1", 0)]
  properties := [("embeddedTestObject", .object 0)]
  isDeleted := false

theorem run_firstObject :
    run (step textRuntime) [.create (titled "MPEmbeddedTestObject:1" "A") "embeddedTestObject",
      .setEmbeddedObject (some 0) "embeddedTestObject"] new = some firstObject := by
  decide

theorem classKind_titledText (text : String) (entries : Content)
    (htext : textRuntime.coding.jsonOfText text = some (.node .dictionary entries)) :
    textRuntime.classKind text = .unknown := by
  have heq : text = titledText := by
    by_contra hne
    simp [textRuntime, hne] at htext
  rw [heq]
  decide

theorem wellFormedItem_object : WellFormedItem textRuntime firstObject (.object 0) :=
  ⟨_, rfl, identified_embeddedTestObject _ rfl⟩

theorem wellFormedItem_string : WellFormedItem textRuntime firstObject (.string titledText) :=
  ⟨titled "MPEmbeddedTestObject:2" "B", by decide, identified_embeddedTestObject _ rfl⟩

theorem acceptable_object : Acceptable textRuntime.coding firstObject (.object 0) := by
  intro id hid other hoth
  obtain rfl : "MPEmbeddedTestObject:1" = id := some.inj hid
  exact (some.inj hoth).symm

theorem acceptable_string : Acceptable textRuntime.coding firstObject (.string titledText) := by
  intro id hid other hoth
  obtain rfl : "MPEmbeddedTestObject:2" = id := by
    have hsnd : idOf textRuntime.coding firstObject (.string titledText) =
        some "MPEmbeddedTestObject:2" := by decide
    exact some.inj (hsnd.symm.trans hid)
  cases hoth

/-- Then it is set again, together with the text of another. -/
theorem firstObject_sets :
    SetsArray textRuntime firstObject [.object 0, .string titledText] "embeddedArrayOfTestObjects" ∧
    SetsDictionary textRuntime firstObject [("a", .object 0), ("b", .string titledText)]
      "embeddedDictionaryOfTestObjects" := by
  constructor
  · refine ((sets_iff classKind_titledText run_firstObject _).1 _ ?_ (by decide)).2 ?_
    · simpa using ⟨wellFormedItem_object, wellFormedItem_string⟩
    · show ∀ v ∈ [Given.object 0, .string titledText], Acceptable textRuntime.coding firstObject v
      simpa using ⟨acceptable_object, acceptable_string⟩
  · refine ((sets_iff classKind_titledText run_firstObject _).2 _ (by decide) ?_ (by decide)).2
      ⟨by simp, ?_⟩
    · simpa using ⟨wellFormedItem_object, wellFormedItem_string⟩
    · show ∀ x ∈ [("a", Given.object 0), ("b", .string titledText)],
        Acceptable textRuntime.coding firstObject x.2
      simpa using ⟨acceptable_object, acceptable_string⟩

/-- The object with the title A stays in the cache, so that a dictionary with its identifier becomes
that object.  In a dictionary, a dictionary raises. -/
theorem firstObject_not_sets :
    (∃ history, run (step textRuntime) history new = some firstObject) ∧
    (WellFormedItem textRuntime firstObject (.dictionary (titled "MPEmbeddedTestObject:1" "B")) ∧
      ¬SetsArray textRuntime firstObject [.dictionary (titled "MPEmbeddedTestObject:1" "B")]
        "embeddedArrayOfTestObjects") ∧
    WellFormedItem textRuntime firstObject (.dictionary (titled "MPEmbeddedTestObject:2" "B")) ∧
      ¬SetsDictionary textRuntime firstObject
        [("a", .dictionary (titled "MPEmbeddedTestObject:2" "B"))]
        "embeddedDictionaryOfTestObjects" := by
  refine ⟨⟨_, run_firstObject⟩, ⟨⟨_, rfl, identified_embeddedTestObject _ rfl⟩, ?_⟩,
    ⟨_, rfl, identified_embeddedTestObject _ rfl⟩, ?_⟩
  · rintro ⟨h', hexec, refs, hget, hcts⟩
    cases hexec
    cases hget
    revert hcts
    decide
  · rintro ⟨h', hexec, -⟩
    cases hexec

end Holder

end Feather.Embedding
