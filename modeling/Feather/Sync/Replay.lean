import Mathlib.Order.Monotone.Defs
import Feather.Sync.Fields

/-!
# Deserializing records again

The records of a list assign their fields to the objects with their names.  Replaying the list
changes nothing exactly if each of these objects is in the package and in the end has all its values
saved.  A record whose object is not in the package makes another one each time, with an identifier
of its own.
-/

namespace Feather.Sync

open Keyed Program List
open Feather.Embedding

namespace PackageController

variable {env : Environment} {c : Controllers} {record : Record} {records : List Record}
  {s s' : PackageController} {t o : ManagedObject} {id name : String}
  {result : Option ManagedObject}

/-- The identifiers of the objects of a package. -/
def documentIDs (s : PackageController) : List String := s.objects.map ManagedObject.documentID

/-- The objects have different identifiers, and none is deleted. -/
structure WellFormed (s : PackageController) : Prop where
  distinct : s.documentIDs.Nodup
  present : ∀ o ∈ s.objects, o.document.isSome

/-- A record for a package, whose name is given to no new document. -/
structure Incoming (c : Controllers) (s : PackageController) (record : Record) : Prop where
  times : Timed c s.tick record
  fresh : ∀ className n, className ++ ":" ++ c.newUUID n ≠ record.recordID.recordName

/-- The records of a list one after the other, as long as there is no error. -/
def applyAll (env : Environment) (c : Controllers) :
    List Record → PackageController → Option PackageController
  | [], s => some s
  | record :: records, s =>
    match s.deserialize env c record with
    | (s, .ok _) => applyAll env c records s
    | (_, .error _) => none

/-- A list of records a number of times. -/
def replay (env : Environment) (c : Controllers) (records : List Record) :
    ℕ → PackageController → Option PackageController
  | 0, s => some s
  | n + 1, s => (applyAll env c records s).bind (replay env c records n)

/-- The same object, with the same properties. -/
def SameProperties (o o' : ManagedObject) : Prop :=
  o'.documentID = o.documentID ∧ ∀ key, o'.values.lookup key = o.values.lookup key

/-- After the records there is one object with the name of each, and replaying them up to a number
of times makes no object and changes no property. -/
def ReplaysAlike (env : Environment) (c : Controllers) (records : List Record) (times : ℕ)
    (s : PackageController) : Prop :=
  ∃ s₁, applyAll env c records s = some s₁ ∧
    (∀ record ∈ records, s₁.documentIDs.count record.recordID.recordName = 1) ∧
    ∀ n ≤ times, ∃ s₂, replay env c records n s₁ = some s₂ ∧
      Forall₂ SameProperties s₁.objects s₂.objects

/-- The fields that the records have for the object with a name. -/
def fieldsFor (name : String) : List Record → ℕ → List TimedField
  | [], _ => []
  | record :: records, tick =>
    (if record.recordID.recordName = name then record.fields.entries.zipIdx tick else []) ++
      fieldsFor name records (tick + record.fields.entries.length)

/-- The object with a name is in the package, and what the records assign to it is there already; or
else they do not contradict each other, none has a time of update, and the last change is saved. -/
def Settles (env : Environment) (c : Controllers) (records : List Record) (name : String)
    (s : PackageController) : Prop :=
  ∃ t as cache, s.objects.object name = some t ∧
    decodeAll env c t.className (fieldsFor name records s.tick) t.cache = some (as, cache) ∧
    (as = [] ∨ t.contents.Has as ∨
      Functional as ∧ (∀ a ∈ as, a.key ≠ "updatedAt") ∧ SavedLast as t.contents.lookup)

/-! ### The fields for an object -/

theorem map_fst_fieldsFor (name : String) (records : List Record) (tick tick' : ℕ) :
    (fieldsFor name records tick).map Prod.fst = (fieldsFor name records tick').map Prod.fst := by
  induction records generalizing tick tick' with
  | nil => rfl
  | cons record records ih =>
    simp only [fieldsFor, map_append]
    rw [ih (tick + record.fields.entries.length) (tick' + record.fields.entries.length)]
    split
    · rw [zipIdx_map_fst, zipIdx_map_fst]
    · rfl

/-- How many saves the records make. -/
def saveCount (records : List Record) : ℕ :=
  (records.map fun record => record.fields.entries.length).sum

theorem mem_fieldsFor {x : TimedField} {tick : ℕ} (h : x ∈ fieldsFor name records tick) :
    (∃ record ∈ records, x.1 ∈ record.fields.entries) ∧ tick ≤ x.2 ∧
      x.2 < tick + saveCount records := by
  induction records generalizing tick with
  | nil => cases h
  | cons record records ih =>
    rw [saveCount, map_cons, sum_cons]
    rcases mem_append.1 h with hfst | hrest
    · split at hfst
      · have hlt := snd_lt_add_of_mem_zipIdx hfst
        exact ⟨⟨record, mem_cons_self, fst_mem_of_mem_zipIdx hfst⟩, le_snd_of_mem_zipIdx hfst, by omega⟩
      · cases hfst
    · obtain ⟨⟨record', hmem, hx⟩, hle, hlt⟩ := ih hrest
      rw [saveCount] at hlt
      exact ⟨⟨record', mem_cons_of_mem record hmem, hx⟩, by omega, by omega⟩

theorem fieldsFor_eq_nil (h : ∀ record ∈ records, record.recordID.recordName ≠ name) (tick : ℕ) :
    fieldsFor name records tick = [] := by
  induction records generalizing tick with
  | nil => rfl
  | cons record records ih =>
    rw [forall_mem_cons] at h
    rw [fieldsFor, if_neg h.1, ih h.2, nil_append]

theorem Incoming.dated {className : String} {cache cache' : Cache} {as : List Assignment}
    (hrecords : ∀ record ∈ records, Incoming c s record)
    (h : decodeAll env c className (fieldsFor name records s.tick) cache = some (as, cache')) :
    Dated as :=
  dated_of_decodeAll _ h fun x hx => by
    obtain ⟨⟨record, hrec, hfield⟩, hle, -⟩ := mem_fieldsFor hx
    exact ⟨hle, record, (hrecords record hrec).times, hfield⟩

/-! ### A list of records -/

theorem mem_documentIDs_iff : id ∈ s.documentIDs ↔ ∃ t, s.objects.object id = some t := by
  unfold documentIDs Package.object
  rw [mem_map]
  constructor
  · rintro ⟨o, ho, rfl⟩
    rw [← Option.isSome_iff_exists, find?_isSome]
    exact ⟨o, ho, beq_self_eq_true _⟩
  · rintro ⟨t, ht⟩
    exact ⟨t, mem_of_find?_eq_some ht, Package.documentID_of_object ht⟩

theorem eq_of_object (hs : s.documentIDs.Nodup) (ht : s.objects.object id = some t)
    (ho : o ∈ s.objects) (hid : o.documentID = id) : o = t := by
  refine inj_on_of_nodup_map hs ho (mem_of_find?_eq_some ht) ?_
  rw [hid, Package.documentID_of_object ht]

theorem documentIDs_withObject (o : ManagedObject) (s : PackageController) :
    (s.withObject o).documentIDs = s.documentIDs := by
  unfold withObject documentIDs
  rw [map_map]
  refine map_congr_left fun x _ => ?_
  simp only [Function.comp_apply]
  split
  · next heq => exact heq.symm
  · rfl

/-- The name is that of a managed object class with a controller. -/
def Handles (env : Environment) (c : Controllers) (name : String) : Prop :=
  ∃ className, managedObjectClass env name = some className ∧ c.hasController className = true

theorem handles_of_deserialize (h : s.deserialize env c record = (s', .ok result)) :
    Handles env c record.recordID.recordName := by
  obtain ⟨-, e, herr⟩ | ⟨className, hcls, hctl, -⟩ := deserialize_cases env c record s
  · cases herr.symm.trans h
  · exact ⟨className, hcls, hctl⟩

/-- A record for an object of the package changes that object. -/
theorem deserialize_of_object (ht : s.objects.object record.recordID.recordName = some t)
    (hhan : Handles env c record.recordID.recordName) :
    s.deserialize env c record =
      ({ s.withObject (refreshFields env c (record.fields.entries.zipIdx s.tick) t).1 with
          tick := s.tick + record.fields.entries.length },
        (refreshFields env c (record.fields.entries.zipIdx s.tick) t).2.map fun _ =>
          some (refreshFields env c (record.fields.entries.zipIdx s.tick) t).1) := by
  obtain ⟨className, hcls, hctl⟩ := hhan
  obtain ⟨hnot, -⟩ | ⟨_, -, -, ⟨hnone, -⟩ | ⟨t', s₁, htgt, hwith, hdes⟩⟩ :=
    deserialize_cases env c record s
  · cases hctl.symm.trans (hnot className hcls)
  · simp [target, ht] at hnone
  · simp only [target, ht] at htgt
    cases htgt
    cases hwith with
    | own => exact hdes
    | new hnone => cases ht.symm.trans hnone

/-- A record adds nothing, or an object with the identifier of a new document. -/
theorem mem_documentIDs_deserialize (hfresh : ∀ className n, className ++ ":" ++ c.newUUID n ≠ id)
    (h : id ∈ (s.deserialize env c record).1.documentIDs) : id ∈ s.documentIDs := by
  obtain ⟨-, e, hdes⟩ | ⟨className, -, -, ⟨-, hdes⟩ | ⟨t, s₁, -, hwith, hdes⟩⟩ :=
    deserialize_cases env c record s
  · rwa [hdes] at h
  · rwa [hdes] at h
  · rw [hdes] at h
    have hmem : id ∈ s₁.documentIDs := documentIDs_withObject _ s₁ ▸ h
    cases hwith with
    | own => exact hmem
    | new _ ht =>
      rw [documentIDs, map_append, mem_append] at hmem
      refine hmem.resolve_right fun heq => hfresh className s.created ?_
      rw [mem_singleton.1 heq, ht]
      rfl

theorem applyAll_cons_iff : applyAll env c (record :: records) s = some s' ↔
    ∃ s₁ result, s.deserialize env c record = (s₁, .ok result) ∧
      applyAll env c records s₁ = some s' := by
  rw [applyAll]
  split
  · next s₁ result hfst => simp [hfst]
  · next s₁ e hfst => simp [hfst]

theorem mem_documentIDs_applyAll (h : applyAll env c records s = some s')
    (hfresh : ∀ className n, className ++ ":" ++ c.newUUID n ≠ id) (hid : id ∈ s'.documentIDs) :
    id ∈ s.documentIDs := by
  induction records generalizing s with
  | nil =>
    cases h
    exact hid
  | cons record records ih =>
    obtain ⟨s₁, result, hfst, hrest⟩ := applyAll_cons_iff.1 h
    have hfst' := ih hrest
    rw [show s₁ = (s.deserialize env c record).1 by rw [hfst]] at hfst'
    exact mem_documentIDs_deserialize hfresh hfst'

theorem refreshFields_append (fields fields' : List TimedField) (o : ManagedObject) :
    refreshFields env c (fields ++ fields') o =
      match refreshFields env c fields o with
      | (o', .ok ()) => refreshFields env c fields' o'
      | (o', .error e) => (o', .error e) := by
  induction fields generalizing o with
  | nil => rfl
  | cons x fields ih =>
    simp only [cons_append, refreshFields]
    split
    · rfl
    · exact ih _

/-- Each object gets the fields of the first record, and then those of the others. -/
theorem refreshFields_fieldsFor_cons (hs : s.documentIDs.Nodup)
    (ht : s.objects.object record.recordID.recordName = some t) {t' : ManagedObject}
    (hid : t'.documentID = t.documentID)
    (hrfr : refreshFields env c (record.fields.entries.zipIdx s.tick) t = (t', .ok ()))
    (records : List Record) (ho : o ∈ s.objects) :
    refreshFields env c (fieldsFor o.documentID (record :: records) s.tick) o =
      refreshFields env c (fieldsFor (if o.documentID = t'.documentID then t' else o).documentID
        records (s.tick + record.fields.entries.length))
        (if o.documentID = t'.documentID then t' else o) := by
  have hname := Package.documentID_of_object ht
  rw [hid, fieldsFor]
  split
  · next heq =>
    cases eq_of_object hs ht ho heq.symm
    rw [refreshFields_append, hrfr, if_pos rfl, hid]
  · next hne => rw [if_neg fun heq => hne (hname.symm.trans heq.symm), nil_append]

/-- The package after records for its objects. -/
def pass (env : Environment) (c : Controllers) (records : List Record) (s : PackageController) :
    PackageController :=
  { s with
    objects := s.objects.map fun o =>
      (refreshFields env c (fieldsFor o.documentID records s.tick) o).1
    tick := s.tick + saveCount records }

/-- The records can be applied to their objects, with what each object becomes. -/
structure Passes (env : Environment) (c : Controllers) (records : List Record)
    (s s' : PackageController) : Prop where
  handles : ∀ record ∈ records, Handles env c record.recordID.recordName
  refreshes : ∀ o ∈ s.objects,
    (refreshFields env c (fieldsFor o.documentID records s.tick) o).2 = .ok ()
  result : s' = s.pass env c records

theorem passes_nil_iff : Passes env c [] s s' ↔ s' = s := by
  have hpass : s.pass env c [] = s := by
    simp only [pass, fieldsFor, refreshFields, map_id']
    rfl
  exact ⟨fun h => h.result.trans hpass,
    fun h => ⟨fun _ hr => absurd hr not_mem_nil, fun _ _ => rfl, h.trans hpass.symm⟩⟩

theorem passes_cons_iff (hs : s.WellFormed)
    (ht : s.objects.object record.recordID.recordName = some t) {t' : ManagedObject}
    (hid : t'.documentID = t.documentID)
    (hrfr : refreshFields env c (record.fields.entries.zipIdx s.tick) t = (t', .ok ())) :
    Passes env c (record :: records) s s' ↔
      Handles env c record.recordID.recordName ∧ Passes env c records
        { s.withObject t' with tick := s.tick + record.fields.entries.length } s' := by
  have hstep : ∀ o ∈ s.objects, _ := fun o ho =>
    refreshFields_fieldsFor_cons hs.distinct ht hid hrfr records ho
  have hpass : pass env c records
      { s.withObject t' with tick := s.tick + record.fields.entries.length } =
      s.pass env c (record :: records) := by
    simp only [pass, withObject, map_map, saveCount, map_cons, sum_cons, Nat.add_assoc]
    congr 1
    exact map_congr_left fun o ho => (congrArg Prod.fst (hstep o ho)).symm
  have hoks : (∀ o ∈ (s.withObject t').objects, (refreshFields env c (fieldsFor o.documentID records
        (s.tick + record.fields.entries.length)) o).2 = .ok ()) ↔
      ∀ o ∈ s.objects,
        (refreshFields env c (fieldsFor o.documentID (record :: records) s.tick) o).2 = .ok () := by
    rw [withObject, forall_mem_map]
    exact forall₂_congr fun o ho => by rw [hstep o ho]
  constructor
  · intro h
    obtain ⟨hfst, hrest⟩ := forall_mem_cons.1 h.handles
    exact ⟨hfst, hrest, hoks.2 h.refreshes, h.result.trans hpass.symm⟩
  · rintro ⟨hfst, h⟩
    exact ⟨forall_mem_cons.2 ⟨hfst, h.handles⟩, hoks.1 h.refreshes, h.result.trans hpass⟩

theorem applyAll_iff_passes (hs : s.WellFormed)
    (hmem : ∀ record ∈ records, record.recordID.recordName ∈ s.documentIDs) :
    applyAll env c records s = some s' ↔ Passes env c records s s' := by
  induction records generalizing s with
  | nil => rw [applyAll, passes_nil_iff, Option.some.injEq, eq_comm]
  | cons record records ih =>
    obtain ⟨t, ht⟩ := mem_documentIDs_iff.1 (hmem record mem_cons_self)
    have hid := Package.documentID_of_object ht
    rw [applyAll_cons_iff]
    by_cases hhan : Handles env c record.recordID.recordName
    swap
    · refine iff_of_false ?_ fun h => hhan (h.handles record mem_cons_self)
      rintro ⟨s₁, result, hfst, -⟩
      exact hhan (handles_of_deserialize hfst)
    obtain ⟨⟨t', res⟩, hrfr⟩ : ∃ q, refreshFields env c (record.fields.entries.zipIdx s.tick) t = q :=
      ⟨_, rfl⟩
    have hdes := deserialize_of_object ht hhan
    rw [hrfr] at hdes
    cases res with
    | error e =>
      refine iff_of_false ?_ fun h => ?_
      · rintro ⟨s₁, result, hfst, -⟩
        cases hdes.symm.trans hfst
      · have hok := h.refreshes t (mem_of_find?_eq_some ht)
        rw [fieldsFor, if_pos hid.symm, refreshFields_append, hrfr] at hok
        cases hok
    | ok =>
      obtain ⟨as, cache, -, href⟩ := refreshed_of_refreshFields hrfr
        (hs.present t (mem_of_find?_eq_some ht))
      have hs₁ : WellFormed { s.withObject t' with tick := s.tick + record.fields.entries.length } := by
        refine ⟨(documentIDs_withObject t' s).symm ▸ hs.distinct, fun o ho => ?_⟩
        obtain ⟨x, hx, rfl⟩ := mem_map.1 ho
        split
        · exact href.document
        · exact hs.present x hx
      rw [passes_cons_iff hs ht href.documentID hrfr, and_iff_right hhan, ← ih hs₁, hdes]
      · exact ⟨fun ⟨s₁, result, hfst, hlat⟩ => by cases hfst; exact hlat,
          fun hlat => ⟨_, _, rfl, hlat⟩⟩
      · intro r hr
        show r.recordID.recordName ∈ (s.withObject t').documentIDs
        rw [documentIDs_withObject]
        exact hmem r (mem_cons_of_mem record hr)

/-! ### Replaying -/

section

variable {name : String} {o₁ : ManagedObject} {as : List Assignment} {cache : Cache}

/-- An object that has what the records assign to it is not changed by them. -/
theorem refreshFields_again {tick : ℕ}
    (hdec : decodeAll env c o.className (fieldsFor name records tick) o.cache = some (as, cache))
    (href : Refreshed as cache o o₁) (h : as = [] ∨ o₁.contents.Has as) (tick' : ℕ) :
    refreshFields env c (fieldsFor name records tick') o₁ = (o₁, .ok ()) := by
  have hfst := map_fst_fieldsFor name records tick' tick
  rcases h with rfl | h
  · have hkeys := keys_decodeAll hdec
    rw [map_nil, eq_comm, map_eq_nil_iff] at hkeys
    rw [hkeys, map_nil, map_eq_nil_iff] at hfst
    rw [hfst]
    rfl
  · obtain ⟨bs, hbs, hsame⟩ := decodeAll_again hdec (fun _ _ hlk => hlk) hfst
    rw [← href.className, ← href.cache] at hbs
    exact refreshFields_of_has hbs ((Contents.has_congr hsame).2 h) href.document

/-- An object that the records do not change again has what they assign to it. -/
theorem has_of_sameProperties (hclock : StrictMono c.now) {tick : ℕ} (tick' : ℕ)
    (hlt : tick + saveCount records ≤ tick')
    (hdec : decodeAll env c o.className (fieldsFor name records tick) o.cache = some (as, cache))
    (href : Refreshed as cache o o₁) {o₂ : ManagedObject}
    (hagain : refreshFields env c (fieldsFor name records tick') o₁ = (o₂, .ok ()))
    (hsame : SameProperties o₁ o₂) : as = [] ∨ o₁.contents.Has as := by
  refine or_iff_not_imp_left.2 fun hne => ?_
  obtain ⟨bs, hbs, htargets⟩ := decodeAll_again hdec (fun _ _ hlk => hlk)
    (map_fst_fieldsFor name records tick' tick)
  obtain ⟨bs', cache', hbs', href'⟩ := refreshed_of_refreshFields hagain href.document
  rw [href.className, href.cache] at hbs'
  cases hbs.symm.trans hbs'
  rw [href.contents]
  refine Contents.has_of_setAll_again hne htargets (fun a ha b hb => ?_) ?_
  · obtain ⟨_, k, _, _, hk, hnow, -⟩ := exists_of_mem_decodeAll hdec ha
    obtain ⟨_, k', _, _, hk', hnow', -⟩ := exists_of_mem_decodeAll hbs hb
    rw [hnow, hnow']
    refine (hclock ?_).ne
    exact (mem_fieldsFor hk).2.2.trans_le (hlt.trans (mem_fieldsFor hk').2.1)
  · rw [← href.contents, ← href'.contents]
    exact funext hsame.2

end

theorem Passes.refreshed (h : Passes env c records s s') (hs : s.WellFormed) (ho : o ∈ s.objects) :
    ∃ as cache, decodeAll env c o.className (fieldsFor o.documentID records s.tick) o.cache =
        some (as, cache) ∧
      Refreshed as cache o (refreshFields env c (fieldsFor o.documentID records s.tick) o).1 :=
  refreshed_of_refreshFields (Prod.ext rfl (h.refreshes o ho)) (hs.present o ho)

theorem Passes.wellFormed (h : Passes env c records s s') (hs : s.WellFormed) :
    s'.WellFormed ∧ s'.documentIDs = s.documentIDs := by
  have hids : s'.documentIDs = s.documentIDs := by
    rw [h.result, documentIDs, pass, map_map]
    refine map_congr_left fun o ho => ?_
    obtain ⟨as, cache, -, href⟩ := h.refreshed hs ho
    exact href.documentID
  refine ⟨⟨hids ▸ hs.distinct, fun o ho => ?_⟩, hids⟩
  rw [h.result] at ho
  obtain ⟨x, hx, rfl⟩ := mem_map.1 ho
  obtain ⟨as, cache, -, href⟩ := h.refreshed hs hx
  exact href.document

/-- Records that change no object at any time can be replayed. -/
theorem exists_replay (hs : s.WellFormed)
    (hmem : ∀ record ∈ records, record.recordID.recordName ∈ s.documentIDs)
    (hhan : ∀ record ∈ records, Handles env c record.recordID.recordName)
    (hsame : ∀ o ∈ s.objects, ∀ tick,
      refreshFields env c (fieldsFor o.documentID records tick) o = (o, .ok ())) (n : ℕ) :
    ∃ s', replay env c records n s = some s' ∧ s'.objects = s.objects := by
  induction n generalizing s with
  | zero => exact ⟨s, rfl, rfl⟩
  | succ n ih =>
    have hpass : Passes env c records s (s.pass env c records) :=
      ⟨hhan, fun o ho => by rw [hsame o ho], rfl⟩
    have hobjects : (s.pass env c records).objects = s.objects :=
      (map_congr_left fun o ho => by rw [hsame o ho]; rfl).trans (map_id _)
    obtain ⟨hs₁, hids⟩ := hpass.wellFormed hs
    obtain ⟨s', hrep, heq⟩ := ih hs₁ (hids ▸ hmem) (hobjects ▸ hsame)
    refine ⟨s', ?_, heq.trans hobjects⟩
    rw [replay, (applyAll_iff_passes hs hmem).2 hpass, Option.bind_some, hrep]

/-- Records can be deserialized again, any positive number of times, exactly if each of their objects
is in the package and has its values, or gets them without a contradiction, without a time of update
and with a successful save at the last change. -/
theorem deserialize_again_iff (hclock : StrictMono c.now) (hs : s.WellFormed)
    (hrecords : ∀ record ∈ records, Incoming c s record)
    (hall : applyAll env c records s = some s') {times : ℕ} (htimes : 0 < times) :
    ReplaysAlike env c records times s ↔
      ∀ record ∈ records, Settles env c records record.recordID.recordName s := by
  constructor
  · rintro ⟨s₁, hfst, hcount, hrep⟩ record hrec
    have hmem : ∀ record ∈ records, record.recordID.recordName ∈ s.documentIDs := fun r hr =>
      mem_documentIDs_applyAll hfst (hrecords r hr).fresh
        (count_pos_iff.1 (hcount r hr ▸ Nat.one_pos))
    have hpass := (applyAll_iff_passes hs hmem).1 hfst
    obtain ⟨hs₁, hids⟩ := hpass.wellFormed hs
    obtain ⟨s₂, hsnd, hsame⟩ := hrep 1 htimes
    rw [replay, Option.bind_eq_some_iff] at hsnd
    obtain ⟨s₂', hsnd, heq⟩ := hsnd
    cases heq
    have hpass₂ := (applyAll_iff_passes hs₁ (hids ▸ hmem)).1 hsnd
    obtain ⟨t, ht⟩ := mem_documentIDs_iff.1 (hmem record hrec)
    have htmem := mem_of_find?_eq_some ht
    obtain ⟨as, cache, hdec, href⟩ := hpass.refreshed hs htmem
    obtain ⟨o₁, ho₁⟩ : ∃ o₁, (refreshFields env c (fieldsFor t.documentID records s.tick) t).1 = o₁ :=
      ⟨_, rfl⟩
    have hmem₁ : o₁ ∈ s₁.objects := by
      rw [hpass.result, ← ho₁]
      exact mem_map_of_mem htmem
    rw [ho₁] at href
    rw [hpass₂.result, pass, forall₂_map_right_iff, forall₂_same] at hsame
    have hok := hpass₂.refreshes o₁ hmem₁
    have hprops := hsame o₁ hmem₁
    rw [href.documentID] at hok hprops
    have hthere := has_of_sameProperties hclock s₁.tick (by rw [hpass.result, pass])
      hdec href (Prod.ext rfl hok) hprops
    rw [Package.documentID_of_object ht] at hdec
    refine ⟨t, as, cache, ht, hdec, hthere.imp_right fun hhas => ?_⟩
    rw [href.contents] at hhas
    exact (Contents.has_setAll_iff (Incoming.dated hrecords hdec)).1 hhas
  · intro h
    have hmem : ∀ record ∈ records, record.recordID.recordName ∈ s.documentIDs := fun r hr => by
      obtain ⟨t, -, -, ht, -⟩ := h r hr
      exact mem_documentIDs_iff.2 ⟨t, ht⟩
    have hpass := (applyAll_iff_passes hs hmem).1 hall
    obtain ⟨hs₁, hids⟩ := hpass.wellFormed hs
    refine ⟨s', hall, fun r hr => count_eq_one_of_mem hs₁.distinct (hids ▸ hmem r hr),
      fun n _ => ?_⟩
    have hsame : ∀ o ∈ s'.objects, ∀ tick,
        refreshFields env c (fieldsFor o.documentID records tick) o = (o, .ok ()) := by
      rw [hpass.result]
      refine forall_mem_map.2 fun o ho tick => ?_
      obtain ⟨as, cache, hdec, href⟩ := hpass.refreshed hs ho
      rw [href.documentID]
      refine refreshFields_again hdec href ?_ tick
      by_cases hname : ∃ record ∈ records, record.recordID.recordName = o.documentID
      · obtain ⟨record, hrec, hname⟩ := hname
        obtain ⟨t, as', cache', ht, hdec', hcond⟩ := h record hrec
        cases eq_of_object hs.distinct ht ho hname.symm
        rw [hname] at hdec'
        cases hdec.symm.trans hdec'
        rw [href.contents]
        exact hcond.imp_right (Contents.has_setAll_iff (Incoming.dated hrecords hdec)).2
      · rw [fieldsFor_eq_nil fun record hrec heq => hname ⟨record, hrec, heq⟩] at hdec
        cases hdec
        exact .inl rfl
    obtain ⟨s₂, hrep, heq⟩ := exists_replay hs₁ (hids ▸ hmem) hpass.handles hsame n
    refine ⟨s₂, hrep, ?_⟩
    rw [heq]
    exact forall₂_same.2 fun _ _ => ⟨rfl, fun _ => rfl⟩

/-! ### Test packages -/

theorem incoming_testRecord (s : PackageController) : Incoming testControllers s testRecord where
  times := timed_testRecord s.tick
  fresh className n heq := by
    have hlast := congrArg (fun s : String => s.toList.getLast?) heq
    cases n with
    | zero => simp [testControllers, testRecord] at hlast
    | succ n =>
      simp only [testControllers, replicate_succ', String.toList_append, String.toList_ofList,
        ← append_assoc, getLast?_concat] at hlast
      cases hlast

theorem wellFormed_testPackage : testPackage.WellFormed where
  distinct := nodup_singleton _
  present o ho := by
    cases mem_singleton.1 ho
    rfl

/-- The record is applied to its object once, however often it is deserialized. -/
theorem testPackage_replaysAlike :
    ReplaysAlike testEnvironment testControllers [testRecord, testRecord] 2 testPackage := by
  refine (deserialize_again_iff (fun m n hlt => Nat.cast_lt.2 hlt) wellFormed_testPackage
    (fun record hrec => ?_) rfl Nat.two_pos).2 fun record hrec => ?_
  · obtain rfl : record = testRecord := by simpa using hrec
    exact incoming_testRecord testPackage
  · obtain rfl : record = testRecord := by simpa using hrec
    refine ⟨_, [⟨"title", some (.value (.string "A")), testControllers.now 0, true⟩,
      ⟨"title", some (.value (.string "A")), testControllers.now 1, true⟩], [], rfl, rfl,
      .inr (.inr ⟨by simp [Functional], by simp, [_], _, [], rfl, rfl, by simp⟩)⟩

/-- In a package without the object there is no object with the name of the record afterwards. -/
theorem emptyPackage_not_replaysAlike :
    ¬ReplaysAlike testEnvironment testControllers [testRecord] 1 emptyPackage := by
  rintro ⟨s₁, hok, hcnt, -⟩
  cases hok
  have hone := hcnt testRecord mem_cons_self
  revert hone
  decide

end PackageController

end Feather.Sync
