import Feather.Sync.Deserializer
import Feather.Sync.Reserialize

/-!
# The fields of a record in turn

A field is decoded to the same value again, since the embedded object made for it is then in the
cache (`decode_cases`).  What the fields of a record, or of several, do to an object is a list of
assignments, each with a save after it.  An assignment of what a clean object has changes nothing;
every other sets `updatedAt` to the current time, whether its save succeeds or not.
-/

namespace Feather.Sync

open Keyed Program List Function ManagedObject
open Feather.Embedding

variable {v : Option Value} {cache cache' : Cache}

/-! ### Decoding again -/

section

variable {env : Environment} {propertyClass : PropertyClass} {key : String} {field : RecordValue}

/-- The cache with an object, unless there is one with the identifier. -/
def remember (id : String) (o : EmbeddedObject) (cache : Cache) : Cache :=
  if (cache.lookup id).isSome then cache else (id, o) :: cache

theorem lookup_remember (id : String) (o : EmbeddedObject) (cache : Cache) (other : String) :
    (remember id o cache).lookup other =
      if other = id then some ((cache.lookup id).getD o) else cache.lookup other := by
  unfold remember
  by_cases heq : other = id
  · subst heq
    cases hlk : cache.lookup other with
    | none => simp
    | some existing => simp [hlk]
  · rw [if_neg heq]
    split
    · rfl
    · rw [lookup_cons, beq_false_of_ne heq]

/-- A text fails or gives nothing, or the object in the cache, or else a new one. -/
theorem exec_embeddedObjectWithJSONString_cases (runtime : Runtime) (s key : String) :
    (∃ e, ∀ cache, exec (embeddedObjectWithJSONString runtime s key) cache = some (.error e)) ∨
    (∀ cache, exec (embeddedObjectWithJSONString runtime s key) cache = some (.ok (none, cache))) ∨
    ∃ id o, ∀ cache, exec (embeddedObjectWithJSONString runtime s key) cache =
      some (.ok (some ((cache.lookup id).getD o), remember id o cache)) := by
  unfold embeddedObjectWithJSONString
  split
  · exact .inr (.inl fun cache => rfl)
  · next dictionary _ =>
    split
    · exact .inr (.inl fun cache => rfl)
    · exact .inr (.inl fun cache => rfl)
    · exact .inl ⟨_, fun cache => rfl⟩
    · unfold initWithDictionary
      split
      · next id className _ _ =>
        by_cases hsts : hasPrefix className id
        · refine .inr (.inr ⟨id, ⟨key, dictionary⟩, fun cache => ?_⟩)
          unfold remember
          cases hlk : cache.lookup id <;> simp [hsts, hlk]
        · exact .inl ⟨.unexpectedID, fun cache => by simp [hsts]⟩
      · exact .inl ⟨_, fun cache => rfl⟩
  · exact .inl ⟨_, fun cache => rfl⟩

/-- What a field is decoded to depends on the cache for an embedded object only. -/
theorem decode_cases (env : Environment) (propertyClass : PropertyClass) (key : String)
    (field : RecordValue) :
    (∃ e, ∀ cache, decode env propertyClass key field cache = .error e) ∨
    (∃ v, ∀ cache, decode env propertyClass key field cache = .ok (v, cache)) ∨
    (∃ className, propertyClass = .embedded className) ∧
      ∃ id o, ∀ cache, decode env propertyClass key field cache =
        .ok (some ((cache.lookup id).getD o).value, remember id o cache) := by
  have hrefs : ∀ recordIDs,
      (∃ e, ∀ cache : Cache, (decodeReferences propertyClass key recordIDs).map
        (fun v => (some v, cache)) = .error e) ∨
      ∃ v, ∀ cache : Cache, (decodeReferences propertyClass key recordIDs).map
        (fun v => (some v, cache)) = .ok (v, cache) := by
    intro recordIDs
    cases decodeReferences propertyClass key recordIDs with
    | error e => exact .inl ⟨e, fun cache => rfl⟩
    | ok v => exact .inr ⟨some v, fun cache => rfl⟩
  unfold decode
  split
  · split
    · exact .inr (.inl ⟨_, fun cache => rfl⟩)
    · exact .inl ⟨_, fun cache => rfl⟩
  · next recordIDs => exact (hrefs recordIDs).imp_right .inl
  · exact (hrefs []).imp_right .inl
  · next s =>
    unfold decodeString
    cases propertyClass with
    | embedded className =>
      rcases exec_embeddedObjectWithJSONString_cases env.runtime s key with
        ⟨e, h⟩ | h | ⟨id, o, h⟩
      · exact .inl ⟨.raised e, fun cache => by simp only [h]⟩
      · exact .inr (.inl ⟨none, fun cache => by simp only [h, Option.map_none]⟩)
      · exact .inr (.inr ⟨⟨className, rfl⟩, id, o, fun cache => by
          simp only [h, Option.map_some]⟩)
    | dictionary _ | array _ | models =>
      simp only
      split
      · exact .inr (.inl ⟨_, fun cache => rfl⟩)
      · exact .inl ⟨_, fun cache => rfl⟩
    | model => exact .inl ⟨_, fun cache => rfl⟩
    | _ => exact .inr (.inl ⟨_, fun cache => rfl⟩)
  · exact .inr (.inl ⟨_, fun cache => rfl⟩)

/-- The objects of a cache are all in another one. -/
def Extends (cache cache' : Cache) : Prop :=
  ∀ id o, cache.lookup id = some o → cache'.lookup id = some o

theorem extends_of_decode (h : decode env propertyClass key field cache = .ok (v, cache')) :
    Extends cache cache' := by
  rcases decode_cases env propertyClass key field with ⟨e, hall⟩ | ⟨w, hall⟩ | ⟨-, id, o, hall⟩
  · rw [hall cache] at h
    cases h
  · cases (hall cache).symm.trans h
    exact fun _ _ hlk => hlk
  · cases (hall cache).symm.trans h
    intro other existing hlk
    rw [lookup_remember]
    split
    · next heq => rw [← heq, hlk, Option.getD_some]
    · exact hlk

/-- With the object that was made, a field is decoded to the same value. -/
theorem decode_again {later : Cache}
    (h : decode env propertyClass key field cache = .ok (v, cache'))
    (hlat : Extends cache' later) :
    decode env propertyClass key field later = .ok (v, later) := by
  rcases decode_cases env propertyClass key field with ⟨e, hall⟩ | ⟨w, hall⟩ | ⟨-, id, o, hall⟩
  · rw [hall cache] at h
    cases h
  · cases (hall cache).symm.trans h
    exact hall later
  · cases (hall cache).symm.trans h
    have hmade := hlat id ((cache.lookup id).getD o) (by rw [lookup_remember, if_pos rfl])
    rw [hall later, hmade, Option.getD_some, remember, hmade, if_pos Option.isSome_some]

end

/-! ### Assignments -/

/-- A decoded field, with the time of the save after it and whether that succeeds. -/
structure Assignment where
  key : String
  value : Option Value
  now : ℚ
  saved : Bool

/-- What an object has in memory, and whether it has unsaved changes. -/
structure Contents where
  lookup : String → Option Value
  needsSave : Bool

namespace Contents

/-- The values with the times that a save sets. -/
def stamped (now : ℚ) (f : String → Option Value) : String → Option Value :=
  update (update f "createdAt"
    (some ((f "createdAt").getD (.value (.number now))))) "updatedAt" (some (.value (.number now)))

/-- A value is set, and the object is saved. -/
def set (x : Contents) (a : Assignment) : Contents :=
  if x.needsSave = false ∧ x.lookup a.key = a.value then x
  else ⟨stamped a.now (update x.lookup a.key a.value), !a.saved⟩

/-- The assignments one after the other. -/
def setAll (assignments : List Assignment) (x : Contents) : Contents := assignments.foldl set x

/-- All values are there, and saved. -/
def Has (x : Contents) (assignments : List Assignment) : Prop :=
  x.needsSave = false ∧ ∀ a ∈ assignments, x.lookup a.key = a.value

end Contents

/-- No two of the assignments set a key to different values. -/
def Functional (assignments : List Assignment) : Prop :=
  ∀ a ∈ assignments, ∀ b ∈ assignments, a.key = b.key → a.value = b.value

theorem functional_of_nodup {as : List Assignment} (h : (as.map Assignment.key).Nodup) :
    Functional as := fun _ ha _ hb heq => congrArg _ (inj_on_of_nodup_map h ha hb heq)

/-- The times that are assigned are not those of the saves. -/
def Dated (assignments : List Assignment) : Prop :=
  ∀ a ∈ assignments, a.key ∈ timestampKeys →
    ∃ d, a.value = some (.value (.number d)) ∧ ∀ b ∈ assignments, d ≠ b.now

/-- After the assignments `before` this one changes nothing. -/
def Covered (before : List Assignment) (f : String → Option Value) (a : Assignment) : Prop :=
  a.key ≠ "updatedAt" ∧ ((∃ b ∈ before, b.key = a.key) ∨ f a.key = a.value)

/-- One of the saves succeeds, and the assignments behind it change nothing. -/
def SavedLast (assignments : List Assignment) (f : String → Option Value) : Prop :=
  ∃ l a r, assignments = l ++ a :: r ∧ a.saved = true ∧ ∀ b ∈ r, Covered (l ++ [a]) f b

namespace Contents

variable {x : Contents} {a b : Assignment} {as bs : List Assignment} {key : String}

theorem Has.of_cons (h : x.Has (a :: as)) : x.Has as :=
  ⟨h.1, fun b hb => h.2 b (mem_cons_of_mem a hb)⟩

theorem set_of_has (h : x.Has (a :: as)) : x.set a = x :=
  if_pos ⟨h.1, h.2 a mem_cons_self⟩

theorem setAll_of_has (h : x.Has as) : x.setAll as = x := by
  induction as with
  | nil => rfl
  | cons a as ih =>
    rw [setAll, foldl_cons, set_of_has h]
    exact ih h.of_cons

theorem lookup_set_of_changed (h : ¬(x.needsSave = false ∧ x.lookup a.key = a.value)) :
    (x.set a).lookup = stamped a.now (update x.lookup a.key a.value) := by
  rw [set, if_neg h]

theorem lookup_set_updatedAt (h : ¬(x.needsSave = false ∧ x.lookup a.key = a.value)) :
    (x.set a).lookup "updatedAt" = some (.value (.number a.now)) := by
  rw [lookup_set_of_changed h, stamped, update_self]

/-- Apart from the time of the update a value is kept or set, unless it is the time of creation and
there is none. -/
theorem lookup_set (hupd : key ≠ "updatedAt")
    (hcr : key = "createdAt" → (update x.lookup a.key a.value key).isSome) :
    (x.set a).lookup key = update x.lookup a.key a.value key := by
  unfold set
  split
  · next h => rw [← h.2, update_eq_self]
  · show stamped a.now _ key = _
    rw [stamped, update_of_ne hupd]
    by_cases hkey : key = "createdAt"
    · subst hkey
      obtain ⟨v, hv⟩ := Option.isSome_iff_exists.1 (hcr rfl)
      rw [update_self, hv, Option.getD_some]
    · rw [update_of_ne hkey]

theorem lookup_setAll_of_eq (hupd : key ≠ "updatedAt") (hcr : key = "createdAt" → v.isSome)
    (hx : x.lookup key = v) (h : ∀ a ∈ as, a.key = key → a.value = v) :
    (x.setAll as).lookup key = v := by
  induction as generalizing x with
  | nil => exact hx
  | cons a as ih =>
    rw [forall_mem_cons] at h
    have hval : update x.lookup a.key a.value key = v := by
      rw [update_apply]
      split
      · next heq => exact h.1 heq.symm
      · exact hx
    exact ih ((lookup_set hupd (by rwa [hval])).trans hval) h.2

/-- Values that do not contradict each other are there afterwards. -/
theorem lookup_setAll (hfun : Functional as) (hdat : Dated as) (ha : a ∈ as)
    (hupd : a.key ≠ "updatedAt") : (x.setAll as).lookup a.key = a.value := by
  have hcr : a.key = "createdAt" → a.value.isSome := fun hkey => by
    obtain ⟨d, hd, -⟩ := hdat a ha (by simp [hkey, timestampKeys])
    rw [hd, Option.isSome_some]
  obtain ⟨l, r, rfl⟩ := append_of_mem ha
  rw [setAll, foldl_append, foldl_cons]
  refine lookup_setAll_of_eq hupd hcr ?_ fun b hb heq => ?_
  · rw [lookup_set hupd (by rwa [update_self]), update_self]
  · exact hfun b (by simp [hb]) a ha heq

/-- Where not all is there already, the time of the update is that of one of the saves. -/
theorem updatedAt_setAll (hne : as ≠ []) (h : ¬x.Has as) :
    ∃ a ∈ as, (x.setAll as).lookup "updatedAt" = some (.value (.number a.now)) := by
  induction as generalizing x with
  | nil => exact absurd rfl hne
  | cons a as ih =>
    rw [setAll, foldl_cons]
    by_cases hrest : (x.set a).Has as
    · -- the others change nothing, so this one did
      have hset : ¬(x.needsSave = false ∧ x.lookup a.key = a.value) := by
        intro hsame
        rw [set, if_pos hsame] at hrest
        exact h ⟨hsame.1, forall_mem_cons.2 ⟨hsame.2, hrest.2⟩⟩
      exact ⟨a, mem_cons_self, (congrArg (lookup · _) (setAll_of_has hrest)).trans
        (lookup_set_updatedAt hset)⟩
    · rcases eq_or_ne as [] with rfl | hne'
      · refine ⟨a, mem_cons_self, lookup_set_updatedAt fun hsame => hrest ?_⟩
        rw [set, if_pos hsame]
        exact ⟨hsame.1, fun b hb => by cases hb⟩
      · obtain ⟨b, hb, hval⟩ := ih hne' hrest
        exact ⟨b, mem_cons_of_mem a hb, hval⟩

/-- After a change a value is there if it was, or if it was the one set. -/
theorem lookup_set_iff (h : ¬(x.needsSave = false ∧ x.lookup a.key = a.value))
    (hfun : Functional (a :: as)) (hdat : Dated (a :: as)) (hb : b ∈ as) :
    (x.set a).lookup b.key = b.value ↔ Covered [a] x.lookup b := by
  have hmem := mem_cons_of_mem a hb
  have htime : b.key ∈ timestampKeys →
      b.value.isSome ∧ b.value ≠ some (.value (.number a.now)) := by
    intro hkey
    obtain ⟨d, hd, hne⟩ := hdat b hmem hkey
    rw [hd]
    refine ⟨rfl, fun heq => hne a mem_cons_self ?_⟩
    cases heq
    rfl
  by_cases hupd : b.key = "updatedAt"
  · refine iff_of_false (fun heq => ?_) fun hcov => hcov.1 hupd
    rw [hupd, lookup_set_updatedAt h] at heq
    exact (htime (by simp [hupd, timestampKeys])).2 heq.symm
  have hcov : Covered [a] x.lookup b ↔ update x.lookup a.key a.value b.key = b.value := by
    rw [update_apply]
    split
    · next heq =>
      exact iff_of_true ⟨hupd, .inl ⟨a, mem_singleton_self a, heq.symm⟩⟩
        (hfun a mem_cons_self b hmem heq.symm)
    · next hne => simp [Covered, hupd, Ne.symm hne]
  rw [hcov]
  by_cases hcr : b.key = "createdAt" ∧ update x.lookup a.key a.value b.key = none
  · -- the save sets the time of creation
    obtain ⟨hsome, hne⟩ := htime (by simp [hcr.1, timestampKeys])
    refine iff_of_false (fun heq => hne ?_) fun heq => ?_
    · rw [← heq, lookup_set_of_changed h, stamped, update_of_ne hupd, ← hcr.1,
        update_self, hcr.2, Option.getD_none]
    · rw [← heq, hcr.2] at hsome
      cases hsome
  · rw [lookup_set hupd fun hkey => Option.isSome_iff_ne_none.2 fun hnone => hcr ⟨hkey, hnone⟩]

theorem savedLast_cons {f : String → Option Value} :
    SavedLast (a :: as) f ↔ (a.saved = true ∧ ∀ b ∈ as, Covered [a] f b) ∨
      ∃ l c r, as = l ++ c :: r ∧ c.saved = true ∧ ∀ b ∈ r, Covered (a :: (l ++ [c])) f b := by
  constructor
  · rintro ⟨_ | ⟨a', l⟩, c, r, heq, hrest⟩
    · cases heq
      exact .inl hrest
    · cases heq
      exact .inr ⟨l, c, r, rfl, hrest⟩
  · rintro (⟨hsav, hcov⟩ | ⟨l, c, r, rfl, hrest⟩)
    · exact ⟨[], a, as, rfl, hsav, hcov⟩
    · exact ⟨a :: l, c, r, rfl, hrest⟩

theorem covered_cons_iff {f : String → Option Value} :
    Covered (a :: as) f b ↔ b.key ≠ "updatedAt" ∧ ((∃ c ∈ as, c.key = b.key) ∨ Covered [a] f b) := by
  simp only [Covered, exists_mem_cons_iff, mem_singleton, exists_eq_left]
  refine and_congr_right fun hupd => ?_
  rw [and_iff_right hupd, or_right_comm, or_comm]

/-- In the end all is saved exactly if all was there and saved, or the assignments behind one with
a successful save change nothing. -/
theorem needsSave_setAll_iff (hfun : Functional as) (hdat : Dated as) :
    (x.setAll as).needsSave = false ↔ x.Has as ∨ SavedLast as x.lookup := by
  induction as generalizing x with
  | nil => simp [setAll, Has, SavedLast]
  | cons a as ih =>
    have hfun' : Functional as := fun b hb c hc =>
      hfun b (mem_cons_of_mem a hb) c (mem_cons_of_mem a hc)
    have hdat' : Dated as := fun b hb hkey => by
      obtain ⟨d, hd, hne⟩ := hdat b (mem_cons_of_mem a hb) hkey
      exact ⟨d, hd, fun c hc => hne c (mem_cons_of_mem a hc)⟩
    rw [setAll, foldl_cons, savedLast_cons]
    refine (ih hfun' hdat').trans ?_
    by_cases h : x.needsSave = false ∧ x.lookup a.key = a.value
    · -- nothing is set, and what this one covers is there
      have hcov : ∀ b ∈ as, Covered [a] x.lookup b → x.lookup b.key = b.value := by
        rintro b hb ⟨-, ⟨c, hc, heq⟩ | hval⟩
        · cases mem_singleton.1 hc
          rw [← heq, h.2, hfun a mem_cons_self b (mem_cons_of_mem a hb) heq]
        · exact hval
      rw [set, if_pos h]
      constructor
      · rintro (hhas | ⟨l, c, r, rfl, hsav, hall⟩)
        · exact .inl ⟨h.1, forall_mem_cons.2 ⟨h.2, hhas.2⟩⟩
        · refine .inr (.inr ⟨l, c, r, rfl, hsav, fun b hb => covered_cons_iff.2 ?_⟩)
          exact ⟨(hall b hb).1, (hall b hb).2.imp_right fun hval => ⟨(hall b hb).1, .inr hval⟩⟩
      · rintro (hhas | ⟨-, hall⟩ | ⟨l, c, r, rfl, hsav, hall⟩)
        · exact .inl hhas.of_cons
        · exact .inl ⟨h.1, fun b hb => hcov b hb (hall b hb)⟩
        · refine .inr ⟨l, c, r, rfl, hsav, fun b hb => ?_⟩
          obtain ⟨hupd, hor⟩ := covered_cons_iff.1 (hall b hb)
          exact ⟨hupd, hor.imp_right (hcov b (by simp [hb]))⟩
    · rw [or_iff_right (a := x.Has (a :: as)) fun hhas => h ⟨hhas.1, hhas.2 a mem_cons_self⟩]
      refine or_congr (and_congr ?_ (forall₂_congr fun b hb => lookup_set_iff h hfun hdat hb)) ?_
      · rw [set, if_neg h, Bool.not_eq_false']
      · refine exists₃_congr fun l c r => and_congr_right fun heq => and_congr_right fun _ =>
          forall₂_congr fun b hb => ?_
        rw [covered_cons_iff, ← lookup_set_iff h hfun hdat (by simp [heq, hb])]
        rfl

/-- After the assignments all is there exactly if it was before, or if they do not contradict each
other, none is the time of the update, and the last change is saved. -/
theorem has_setAll_iff (hdat : Dated as) :
    (x.setAll as).Has as ↔ x.Has as ∨
      Functional as ∧ (∀ a ∈ as, a.key ≠ "updatedAt") ∧ SavedLast as x.lookup := by
  constructor
  · intro h
    have hfun : Functional as := fun a ha b hb heq => by rw [← h.2 a ha, ← h.2 b hb, heq]
    refine or_iff_not_imp_left.2 fun hnot => ⟨hfun, fun a ha hkey => ?_, ?_⟩
    · obtain ⟨d, hd, hne⟩ := hdat a ha (by simp [hkey, timestampKeys])
      obtain ⟨b, hb, hupd⟩ := updatedAt_setAll (ne_nil_of_mem ha) hnot
      have hval := h.2 a ha
      rw [hkey, hupd, hd] at hval
      cases hval
      exact hne b hb rfl
    · exact ((needsSave_setAll_iff hfun hdat).1 h.1).resolve_left hnot
  · rintro (h | ⟨hfun, hupd, hsav⟩)
    · rwa [setAll_of_has h]
    · exact ⟨(needsSave_setAll_iff hfun hdat).2 (.inr hsav),
        fun a ha => lookup_setAll hfun hdat ha (hupd a ha)⟩

theorem has_congr (h : bs.map (fun b => (b.key, b.value)) = as.map fun a => (a.key, a.value)) :
    x.Has bs ↔ x.Has as := by
  have hall : ∀ cs : List Assignment, (∀ c ∈ cs, x.lookup c.key = c.value) ↔
      ∀ q ∈ cs.map fun c => (c.key, c.value), x.lookup q.1 = q.2 := fun cs => by simp
  rw [Has, Has, hall bs, hall as, h]

/-- If the same assignments at other times change no value, all is there. -/
theorem has_of_setAll_again (hne : as ≠ [])
    (hsame : bs.map (fun b => (b.key, b.value)) = as.map fun a => (a.key, a.value))
    (hnow : ∀ a ∈ as, ∀ b ∈ bs, a.now ≠ b.now)
    (h : ((x.setAll as).setAll bs).lookup = (x.setAll as).lookup) : (x.setAll as).Has as := by
  by_contra hnot
  have hbs : bs ≠ [] := by
    rintro rfl
    exact hne (map_eq_nil_iff.1 hsame.symm)
  have hx : ¬x.Has as := fun hx => hnot (by rwa [setAll_of_has hx])
  obtain ⟨a, ha, hfst⟩ := updatedAt_setAll hne hx
  obtain ⟨b, hb, hsnd⟩ := updatedAt_setAll hbs (mt (has_congr hsame).1 hnot)
  rw [h, hfst] at hsnd
  exact hnow a ha b hb (by simpa using hsnd)

end Contents

/-! ### The fields of a record as assignments -/

/-- The fields decoded in turn; `none` if one of them cannot be. -/
def decodeAll (env : Environment) (c : Controllers) (className : String) :
    List TimedField → Cache → Option (List Assignment × Cache)
  | [], cache => some ([], cache)
  | (⟨key, field⟩, tick) :: fields, cache =>
    match decode env (env.runtime.classOfProperty className key) key field cache with
    | .error _ => none
    | .ok (v, cache) => (decodeAll env c className fields cache).map
        (.map (⟨key, v, c.now tick, c.saves tick⟩ :: ·) id)

/-- The values in memory. -/
def ManagedObject.contents (o : ManagedObject) : Contents := ⟨fun key => o.values.lookup key, o.needsSave⟩

/-- The type of an object is not changed. -/
def KeepsType (assignments : List Assignment) (x : Contents) : Prop :=
  ∀ a ∈ assignments, a.key = "objectType" → (x.lookup a.key).isSome → x.lookup a.key = a.value

/-- An object before and after assignments. -/
structure Refreshed (assignments : List Assignment) (cache : Cache) (o o' : ManagedObject) :
    Prop where
  documentID : o'.documentID = o.documentID
  className : o'.className = o.className
  document : o'.document.isSome
  cache : o'.cache = cache
  contents : o'.contents = o.contents.setAll assignments

section

variable {env : Environment} {c : Controllers} {className : String} {as : List Assignment}
  {fields fields' : List TimedField} {o o' : ManagedObject} {tick : ℕ} {key : String}
  {field : RecordValue}

theorem decodeAll_cons_iff {x : TimedField} :
    decodeAll env c className (x :: fields) cache = some (as, cache') ↔
      ∃ v cache₁ rest, decode env (env.runtime.classOfProperty className x.1.1) x.1.1 x.1.2 cache =
          .ok (v, cache₁) ∧ decodeAll env c className fields cache₁ = some (rest, cache') ∧
        as = ⟨x.1.1, v, c.now x.2, c.saves x.2⟩ :: rest := by
  obtain ⟨⟨key, field⟩, tick⟩ := x
  rw [decodeAll]
  cases decode env (env.runtime.classOfProperty className key) key field cache with
  | error e => simp
  | ok q =>
    obtain ⟨v, cache₁⟩ := q
    simp only [Option.map_eq_some_iff, Prod.exists, Prod.map_apply, Prod.mk.injEq, id_eq,
      Except.ok.injEq]
    constructor
    · rintro ⟨rest, cache₂, hrest, rfl, rfl⟩
      exact ⟨v, cache₁, rest, ⟨rfl, rfl⟩, hrest, rfl⟩
    · rintro ⟨v', cache₁', rest, ⟨rfl, rfl⟩, hrest, rfl⟩
      exact ⟨rest, cache', hrest, rfl, rfl⟩

theorem extends_of_decodeAll (h : decodeAll env c className fields cache = some (as, cache')) :
    Extends cache cache' := by
  induction fields generalizing cache as with
  | nil =>
    cases h
    exact fun _ _ hlk => hlk
  | cons x fields ih =>
    obtain ⟨v, cache₁, rest, hdec, hrest, -⟩ := decodeAll_cons_iff.1 h
    exact fun id o hlk => ih hrest id o (extends_of_decode hdec id o hlk)

/-- Where the objects that were made are in the cache, the values are the same again. -/
theorem decodeAll_again (h : decodeAll env c className fields cache = some (as, cache'))
    {later : Cache} (hlat : Extends cache' later) (hsame : fields'.map Prod.fst = fields.map Prod.fst) :
    ∃ bs, decodeAll env c className fields' later = some (bs, later) ∧
      bs.map (fun b => (b.key, b.value)) = as.map fun a => (a.key, a.value) := by
  induction fields generalizing cache as fields' with
  | nil =>
    cases h
    cases map_eq_nil_iff.1 hsame
    exact ⟨[], rfl, rfl⟩
  | cons x fields ih =>
    obtain ⟨y, ys, rfl, heq, hsame⟩ := map_eq_cons_iff.1 hsame
    obtain ⟨v, cache₁, rest, hdec, hrest, rfl⟩ := decodeAll_cons_iff.1 h
    have hext : Extends cache₁ later := fun id o hlk => hlat id o (extends_of_decodeAll hrest id o hlk)
    obtain ⟨bs, hbs, hval⟩ := ih hrest hsame
    refine ⟨_ :: bs, decodeAll_cons_iff.2 ⟨v, later, bs, heq ▸ decode_again hdec hext, hbs, rfl⟩, ?_⟩
    simp [heq, hval]

/-- Where an assignment comes from. -/
theorem exists_of_mem_decodeAll (h : decodeAll env c className fields cache = some (as, cache'))
    {a : Assignment} (ha : a ∈ as) :
    ∃ field tick cache₁ cache₂, (⟨a.key, field⟩, tick) ∈ fields ∧ a.now = c.now tick ∧
      decode env (env.runtime.classOfProperty className a.key) a.key field cache₁ =
        .ok (a.value, cache₂) := by
  induction fields generalizing cache as with
  | nil =>
    cases h
    cases ha
  | cons x fields ih =>
    obtain ⟨v, cache₁, rest, hdec, hrest, rfl⟩ := decodeAll_cons_iff.1 h
    rcases mem_cons.1 ha with rfl | ha
    · exact ⟨x.1.2, x.2, cache, cache₁, mem_cons_self, rfl, hdec⟩
    · obtain ⟨field, tick, cache₁, cache₂, hmem, hrest⟩ := ih hrest ha
      exact ⟨field, tick, cache₁, cache₂, mem_cons_of_mem x hmem, hrest⟩

/-- A record has dates for the two times, other than those of the saves from a number on. -/
def Timed (c : Controllers) (tick : ℕ) (record : Record) : Prop :=
  ∀ key ∈ timestampKeys, ∀ field, record.object key = some field →
    ∃ d, field = .value (.value (.date d)) ∧ ∀ n, tick ≤ n → d ≠ c.now n

theorem dated_of_decodeAll (tick : ℕ) (h : decodeAll env c className fields cache = some (as, cache'))
    (hfields : ∀ x ∈ fields, tick ≤ x.2 ∧ ∃ record, Timed c tick record ∧ x.1 ∈ record.fields.entries) :
    Dated as := by
  intro a ha hkey
  obtain ⟨field, tick₁, cache₁, cache₂, hmem, -, hdec⟩ := exists_of_mem_decodeAll h ha
  obtain ⟨-, record, htimed, hfield⟩ := hfields _ hmem
  obtain ⟨d, rfl, hne⟩ := htimed a.key hkey field (AList.mem_lookup_iff.2 hfield)
  refine ⟨d, ?_, fun b hb => ?_⟩
  · have hset : decode env (env.runtime.classOfProperty className a.key) a.key
        (.value (.value (.date d))) cache₁ = .ok (some (.value (.number d)), cache₁) := by
      simp [decode, settable, hkey]
    rw [hset] at hdec
    exact (Prod.ext_iff.1 (Except.ok.inj hdec)).1.symm
  · obtain ⟨_, tick₂, _, _, hmem', hnow, -⟩ := exists_of_mem_decodeAll h hb
    rw [hnow]
    exact hne tick₂ (hfields _ hmem').1

/-- What a field is decoded to with the objects that were made. -/
theorem decode_of_decodeAll (h : decodeAll env c className fields cache = some (as, cache'))
    {x : TimedField} (hx : x ∈ fields) :
    ∃ a ∈ as, a.key = x.1.1 ∧ decode env (env.runtime.classOfProperty className x.1.1) x.1.1 x.1.2
      cache' = .ok (a.value, cache') := by
  induction fields generalizing cache as with
  | nil => cases hx
  | cons y fields ih =>
    obtain ⟨v, cache₁, rest, hdec, hrest, rfl⟩ := decodeAll_cons_iff.1 h
    rcases mem_cons.1 hx with rfl | hx
    · exact ⟨_, mem_cons_self, rfl, decode_again hdec (extends_of_decodeAll hrest)⟩
    · obtain ⟨a, ha, hval⟩ := ih hrest hx
      exact ⟨a, mem_cons_of_mem _ ha, hval⟩

theorem keys_decodeAll (h : decodeAll env c className fields cache = some (as, cache')) :
    as.map Assignment.key = fields.map fun x => x.1.1 := by
  induction fields generalizing cache as with
  | nil =>
    cases h
    rfl
  | cons x fields ih =>
    obtain ⟨v, cache₁, rest, hdec, hrest, rfl⟩ := decodeAll_cons_iff.1 h
    rw [map_cons, map_cons, ih hrest]

theorem nodup_keys_zipIdx (record : Record) (tick : ℕ) :
    ((record.fields.entries.zipIdx tick).map fun x => x.1.1).Nodup := by
  have hkeys : (record.fields.entries.zipIdx tick).map (fun x => x.1.1) = record.fields.entries.keys := by
    rw [← zipIdx_map_fst tick record.fields.entries, keys, map_map, zipIdx_map_fst]
    rfl
  rw [hkeys]
  exact record.fields.nodupKeys

/-! ### Setting the fields -/

theorem lookup_updateTimestamps (now : ℚ) (values : Dictionary String Value) :
    (fun key => (updateTimestamps now values).lookup key) =
      Contents.stamped now fun key => values.lookup key := by
  funext key
  unfold updateTimestamps Contents.stamped
  by_cases hupd : key = "updatedAt"
  · rw [hupd, AList.lookup_insert, update_self]
  rw [AList.lookup_insert_ne hupd, update_of_ne hupd]
  by_cases hcr : key = "createdAt"
  · subst hcr
    rw [update_self]
    split
    · next v hv => simp [hv]
    · next hnone => simp [hnone]
  · rw [update_of_ne hcr]
    split
    · rfl
    · exact AList.lookup_insert_ne hcr

theorem refreshed_save (o o' : ManagedObject) (hdoc : o'.document.isSome) (hid : o'.documentID = o.documentID)
    (hcls : o'.className = o.className) (hneeds : o'.needsSave = true) {a : Assignment}
    (hnot : ¬(o.needsSave = false ∧ o.contents.lookup a.key = a.value))
    (hval : o'.contents.lookup = update o.contents.lookup a.key a.value)
    (coding : Coding) : Refreshed [a] o'.cache o (o'.save coding a.now a.saved) := by
  have hclean : (saveSteps coding a.now).isClean o' = false := by
    simp [saveSteps, hneeds]
  have hset : o.contents.setAll [a] = ⟨Contents.stamped a.now o'.contents.lookup, !a.saved⟩ := by
    rw [hval]
    exact if_neg hnot
  have htimes : Contents.stamped a.now o'.contents.lookup =
      fun key => (updateTimestamps a.now o'.values).lookup key :=
    (lookup_updateTimestamps a.now o'.values).symm
  unfold save
  rw [Model.SaveSteps.save_of_changed hclean]
  cases hsav : a.saved with
  | false =>
    refine ⟨hid, hcls, hdoc, rfl, ?_⟩
    rw [hset, hsav, htimes]
    simp [contents, saveSteps, hneeds]
  | true =>
    refine ⟨hid, hcls, rfl, rfl, ?_⟩
    rw [hset, hsav, htimes]
    rfl

/-- A field that can be decoded is set, unless it changes the type. -/
theorem exists_refreshField (c : Controllers) (tick : ℕ) (hdoc : o.document.isSome)
    (hdec : decode env (env.runtime.classOfProperty o.className key) key field o.cache =
      .ok (v, cache))
    (htype : key = "objectType" → (o.values.lookup key).isSome → o.values.lookup key = v) :
    ∃ o', refreshField env c tick key field o = .ok o' ∧
      Refreshed [⟨key, v, c.now tick, c.saves tick⟩] cache o o' ∧
      (o.needsSave = false ∧ o.values.lookup key = v → o' = { o with cache }) := by
  have hpre : o.document.isNone = false := by simpa using hdoc
  unfold refreshField setValue
  simp only [hdec, hpre, Bool.false_eq_true, false_or]
  by_cases hsame : o.values.lookup key = v
  · rw [if_pos hsame]
    refine ⟨_, rfl, ?_⟩
    by_cases hneeds : o.needsSave = true
    · refine ⟨refreshed_save o { o with cache } hdoc rfl rfl hneeds
        (a := ⟨key, v, c.now tick, c.saves tick⟩) (by simp [hneeds]) ?_ _, by simp [hneeds]⟩
      rw [← hsame]
      exact (update_eq_self ..).symm
    · have hclean : (saveSteps env.runtime.coding (c.now tick)).isClean
          { o with cache } = true := by simp [saveSteps, hneeds]
      rw [save, Model.SaveSteps.save_of_isClean hclean]
      have hclean' : o.contents.needsSave = false := Bool.eq_false_of_not_eq_true hneeds
      exact ⟨⟨rfl, rfl, hdoc, rfl, (if_pos ⟨hclean', hsame⟩).symm⟩, fun _ => rfl⟩
  · rw [if_neg hsame, if_neg fun h => hsame (htype h.1 h.2)]
    refine ⟨_, rfl, refreshed_save o (assign key v { o with cache }) hdoc rfl rfl
      rfl (a := ⟨key, v, c.now tick, c.saves tick⟩) (fun h => hsame h.2) ?_ _, fun h => absurd h.2 hsame⟩
    funext other
    rw [update_apply]
    exact lookup_assign key v _ other

theorem refreshField_eq_ok (h : refreshField env c tick key field o = .ok o')
    (hdoc : o.document.isSome) :
    ∃ v cache, decode env (env.runtime.classOfProperty o.className key) key field o.cache =
        .ok (v, cache) ∧ Refreshed [⟨key, v, c.now tick, c.saves tick⟩] cache o o' ∧
      (key = "objectType" → (o.values.lookup key).isSome → o.values.lookup key = v) := by
  cases hdec : decode env (env.runtime.classOfProperty o.className key) key field o.cache with
  | error e =>
    rw [refreshField, hdec] at h
    cases h
  | ok q =>
    obtain ⟨v, cache⟩ := q
    have htype : key = "objectType" → (o.values.lookup key).isSome → o.values.lookup key = v := by
      intro hkey hsome
      by_contra hne
      have hpre : o.document.isNone = false := by simpa using hdoc
      unfold refreshField setValue at h
      simp only [hdec, hpre, Bool.false_eq_true, false_or, if_neg hne, if_pos (And.intro hkey hsome)]
        at h
      cases h
    obtain ⟨o'', hok, href, -⟩ := exists_refreshField c tick hdoc hdec htype
    cases h.symm.trans hok
    exact ⟨v, cache, rfl, href, htype⟩

theorem Refreshed.trans {bs : List Assignment} {o'' : ManagedObject} (h : Refreshed as cache o o')
    (h' : Refreshed bs cache' o' o'') : Refreshed (as ++ bs) cache' o o'' where
  documentID := h'.documentID.trans h.documentID
  className := h'.className.trans h.className
  document := h'.document
  cache := h'.cache
  contents := by rw [h'.contents, h.contents, Contents.setAll, Contents.setAll, Contents.setAll, foldl_append]

theorem refreshFields_cons {x : TimedField} (h : refreshFields env c (x :: fields) o = (o', .ok ())) :
    ∃ o₁, refreshField env c x.2 x.1.1 x.1.2 o = .ok o₁ ∧
      refreshFields env c fields o₁ = (o', .ok ()) := by
  unfold refreshFields at h
  split at h
  · cases h
  · next o₁ hfst => exact ⟨o₁, hfst, h⟩

/-- Fields that were set were assigned. -/
theorem refreshed_of_refreshFields (h : refreshFields env c fields o = (o', .ok ()))
    (hdoc : o.document.isSome) :
    ∃ as cache, decodeAll env c o.className fields o.cache = some (as, cache) ∧
      Refreshed as cache o o' := by
  induction fields generalizing o with
  | nil =>
    cases h
    exact ⟨[], _, rfl, rfl, rfl, hdoc, rfl, rfl⟩
  | cons x fields ih =>
    obtain ⟨o₁, hfst, hrest⟩ := refreshFields_cons h
    obtain ⟨v, cache, hdec, href, -⟩ := refreshField_eq_ok hfst hdoc
    obtain ⟨as, cache', hdec', href'⟩ := ih hrest href.document
    rw [href.className, href.cache] at hdec'
    exact ⟨_, cache', decodeAll_cons_iff.2 ⟨v, cache, as, hdec, hdec', rfl⟩, href.trans href'⟩

/-- Fields that are there already change nothing. -/
theorem refreshFields_of_has (hdec : decodeAll env c o.className fields o.cache = some (as, cache))
    (hhas : o.contents.Has as) (hdoc : o.document.isSome) :
    refreshFields env c fields o = ({ o with cache }, .ok ()) := by
  induction fields generalizing o as with
  | nil =>
    cases hdec
    rfl
  | cons x fields ih =>
    obtain ⟨v, cache₁, rest, hfst, hrest, rfl⟩ := decodeAll_cons_iff.1 hdec
    have hval := hhas.2 _ mem_cons_self
    obtain ⟨o₁, hok, -, hsame⟩ := exists_refreshField c x.2 hdoc hfst fun _ _ => hval
    cases hsame ⟨hhas.1, hval⟩
    rw [refreshFields, hok]
    exact ih (o := { o with cache := cache₁ }) hrest hhas.of_cons hdoc

/-- The fields of one record are set exactly if they can be decoded and keep the type. -/
theorem exists_refreshFields_iff (env : Environment) (c : Controllers) (hdoc : o.document.isSome)
    (hnd : (fields.map fun x => x.1.1).Nodup) :
    (∃ o', refreshFields env c fields o = (o', .ok ())) ↔
      ∃ as cache, decodeAll env c o.className fields o.cache = some (as, cache) ∧
        KeepsType as o.contents := by
  induction fields generalizing o with
  | nil => exact ⟨fun _ => ⟨[], o.cache, rfl, fun a ha => by cases ha⟩, fun _ => ⟨o, rfl⟩⟩
  | cons x fields ih =>
    rw [map_cons, nodup_cons] at hnd
    -- the other fields do not change what the first one sets
    have hkeeps : ∀ {v cache o₁ cache' rest}, Refreshed [⟨x.1.1, v, c.now x.2, c.saves x.2⟩] cache o o₁ →
        decodeAll env c o.className fields cache = some (rest, cache') →
        (KeepsType rest o₁.contents ↔ KeepsType rest o.contents) := by
      intro v cache o₁ cache' rest href hrest
      refine forall₃_congr fun a ha hkey => ?_
      have hne : a.key ≠ x.1.1 := by
        rintro heq
        refine hnd.1 ?_
        rw [← keys_decodeAll hrest, ← heq]
        exact mem_map_of_mem ha
      have hlk : o₁.contents.lookup a.key = o.contents.lookup a.key := by
        rw [href.contents]
        refine Contents.lookup_setAll_of_eq (by simp [hkey]) (by simp [hkey]) rfl fun b hb heq => ?_
        cases mem_singleton.1 hb
        exact absurd heq.symm hne
      rw [hlk]
    constructor
    · rintro ⟨o', h⟩
      obtain ⟨o₁, hfst, hrest⟩ := refreshFields_cons h
      obtain ⟨v, cache, hdec, href, htype⟩ := refreshField_eq_ok hfst hdoc
      obtain ⟨as, cache', hdec', hkeep⟩ := (ih href.document hnd.2).1 ⟨o', hrest⟩
      rw [href.className, href.cache] at hdec'
      exact ⟨_, cache', decodeAll_cons_iff.2 ⟨v, cache, as, hdec, hdec', rfl⟩,
        forall_mem_cons.2 ⟨htype, (hkeeps href hdec').1 hkeep⟩⟩
    · rintro ⟨as, cache', hdec, hkeep⟩
      obtain ⟨v, cache, rest, hfst, hrest, rfl⟩ := decodeAll_cons_iff.1 hdec
      obtain ⟨htype, hkeep⟩ := forall_mem_cons.1 hkeep
      obtain ⟨o₁, hok, href, -⟩ := exists_refreshField c x.2 hdoc hfst htype
      obtain ⟨o', hlat⟩ := (ih href.document hnd.2).2 ⟨rest, cache', by
        rwa [href.className, href.cache], (hkeeps href hrest).2 hkeep⟩
      refine ⟨o', ?_⟩
      rw [refreshFields, hok]
      exact hlat

end

/-! ### Test packages -/

/-- A package with one test object. -/
def testPackage : PackageController where
  objects := [{ testObject "MPTestObject:A" with
    values := (∅ : Dictionary String Value).insert "objectType" (.value (.string "MPTestObject")) }]
  shared := []
  created := 0
  tick := 0

/-- The record of the test object, with a title. -/
def testRecord : Record where
  recordType := "TestObject"
  recordID := ⟨"MPTestObject:A", recordZoneID testEnvironment "MPTestObject"⟩
  recordChangeTag := none
  fields := (∅ : Dictionary String RecordValue).insert "title" (.value (.value (.string "A")))

theorem timed_testRecord (tick : ℕ) : Timed testControllers tick testRecord := by
  intro key hkey field hfield
  have hne : key ≠ "title" := by
    rintro rfl
    exact absurd hkey (by decide)
  rw [Record.object, testRecord, AList.lookup_insert_ne hne] at hfield
  cases hfield

end Feather.Sync
