import Feather.Model.Saving
import Mathlib.Data.List.Basic
import Mathlib.Data.Option.Basic

/-!
# The change tag of a managed object

`cloudKitChangeTag` of `MPManagedObject.m` has a setter that stores the tag in two instance
variables and a getter that fills the second from the document, with a null object where there is no
tag.  `save:` writes the tag if the getter and the document both have one.

The getter returns the cached value only if it is the null object, so that no tag is ever returned
or saved.
-/

namespace Feather.Model.ChangeTag

open Option

/-- A tag or `NSNull`. -/
inductive TagValue
  | tag (t : String)
  | null
  deriving DecidableEq

/-- `property` is what `getValueOfProperty:` answers and `saved` what is in the database. -/
structure TaggedObject where
  cloudKitChangeTag : Option TagValue
  cachedCloudKitChangeTag : Option TagValue
  property : Option TagValue
  saved : Option TagValue
  needsSave : Bool
  deriving DecidableEq

/-- An object that was just loaded from its document. -/
def loaded (saved : Option TagValue) : TaggedObject := ⟨none, none, saved, saved, false⟩

/-- `setCloudKitChangeTag:`, which leaves `needsSave` as it is -/
def setCloudKitChangeTag (t : Option String) (o : TaggedObject) : TaggedObject :=
  { o with
    cloudKitChangeTag := t.map .tag
    cachedCloudKitChangeTag := t.map .tag }

/-- `cloudKitChangeTag`, with the object that it leaves -/
def cloudKitChangeTag (o : TaggedObject) : Option TagValue × TaggedObject :=
  let cached := o.cachedCloudKitChangeTag.getD (o.property.getD .null)
  (if cached = .null then some cached else none, { o with cachedCloudKitChangeTag := some cached })

/-- `clearCachedValues`, whose keys include `cachedCloudKitChangeTag` -/
def clearCachedValues (o : TaggedObject) : TaggedObject := { o with cachedCloudKitChangeTag := none }

/-- The steps of `save:` -/
def saveSteps : SaveSteps TaggedObject where
  isClean o := !o.needsSave
  prepare o :=
    let currentChangeTag := (cloudKitChangeTag o).1
    let o := (cloudKitChangeTag o).2
    let savedChangeTag := o.property
    { o with
      property :=
        if currentChangeTag.isSome ∧ savedChangeTag.isSome then currentChangeTag else o.property }
  complete o := { o with saved := o.property, needsSave := false }

/-- `save:`, where the save of the superclass succeeds -/
def save (o : TaggedObject) : TaggedObject := (saveSteps.save true o).2

/-- What happens to the object. -/
inductive TagEvent
  | assign (t : String)
  | clear
  | get
  /-- A property other than the tag is set. -/
  | change
  | save
  deriving DecidableEq

/-- One event. -/
def TagEvent.run : TagEvent → TaggedObject → TaggedObject
  | .assign t, o => setCloudKitChangeTag (some t) o
  | .clear, o => clearCachedValues o
  | .get, o => (cloudKitChangeTag o).2
  | .change, o => { o with needsSave := true }
  | .save, o => ChangeTag.save o

/-- The object after the events of a history. -/
def after (events : List TagEvent) (o : TaggedObject) : TaggedObject :=
  events.foldl (fun o event => event.run o) o

/-- The last tag that was assigned, where `last` is the one from before this event. -/
def TagEvent.lastAssigned (event : TagEvent) (last : Option String) : Option String :=
  match event with
  | .assign t => some t
  | _ => last

/-- The last tag that was assigned, where `before` is the one from before the history. -/
def lastAssigned (events : List TagEvent) (before : Option String) : Option String :=
  events.foldl (fun last event => event.lastAssigned last) before

/-! ### What is cached -/

/-- Loaded with the tag `before`, last given the tag `last`: `NSNull` is cached only where the
document has no tag, a tag only where there is a last one. -/
structure Reached (before last : Option String) (o : TaggedObject) : Prop where
  property : o.property = before.map .tag
  saved : o.saved = before.map .tag
  of_null : o.cachedCloudKitChangeTag = some .null → before = none
  of_tag : ∀ t, o.cachedCloudKitChangeTag = some (.tag t) → last.isSome
  of_before : before.isSome → last.isSome

variable {before last : Option String} {o : TaggedObject}

theorem reached_loaded (h : before.isSome → last.isSome) :
    Reached before last (loaded (before.map .tag)) where
  property := rfl
  saved := rfl
  of_null hnull := by cases hnull
  of_tag t htag := by cases htag
  of_before := h

theorem Reached.get_cases (h : Reached before last o) :
    (before = none ∧ (cloudKitChangeTag o).2.cachedCloudKitChangeTag = some .null ∧
      (cloudKitChangeTag o).1 = some .null) ∨
    (last.isSome ∧ (∃ t, (cloudKitChangeTag o).2.cachedCloudKitChangeTag = some (.tag t)) ∧
      (cloudKitChangeTag o).1 = none) := by
  cases hcad : o.cachedCloudKitChangeTag with
  | some value =>
    cases value with
    | null => exact .inl ⟨h.of_null hcad, by simp [cloudKitChangeTag, hcad]⟩
    | tag t => exact .inr ⟨h.of_tag t hcad, by simp [cloudKitChangeTag, hcad]⟩
  | none =>
    -- the cache is filled from the document
    cases hbef : before with
    | none =>
      have hpr : o.property = none := by rw [h.property, hbef, map_none]
      exact .inl ⟨rfl, by simp [cloudKitChangeTag, hcad, hpr]⟩
    | some p =>
      have hpr : o.property = some (.tag p) := by rw [h.property, hbef, map_some]
      exact .inr ⟨h.of_before (by rw [hbef, isSome_some]),
        by simp [cloudKitChangeTag, hcad, hpr]⟩

/-- Neither answer of the getter is the last tag: not `NSNull`, nor the `nil` for a tag. -/
theorem Reached.get_ne (h : Reached before last o) : (cloudKitChangeTag o).1 ≠ last.map .tag := by
  obtain ⟨-, -, hans⟩ | ⟨hlast, -, hans⟩ := h.get_cases
  · rw [hans]
    cases last <;> simp
  · rw [hans]
    obtain ⟨t, rfl⟩ := isSome_iff_exists.1 hlast
    simp

/-! ### What the events keep -/

theorem Reached.assign (h : Reached before last o) (t : String) :
    Reached before (some t) (setCloudKitChangeTag (some t) o) where
  property := h.property
  saved := h.saved
  of_null hnull := by simp [setCloudKitChangeTag] at hnull
  of_tag _ _ := rfl
  of_before _ := rfl

theorem Reached.clear (h : Reached before last o) : Reached before last (clearCachedValues o) where
  property := h.property
  saved := h.saved
  of_null hnull := by cases hnull
  of_tag t htag := by cases htag
  of_before := h.of_before

theorem Reached.get (h : Reached before last o) : Reached before last (cloudKitChangeTag o).2 := by
  refine ⟨h.property, h.saved, fun hnull => ?_, fun t htag => ?_, h.of_before⟩
  · obtain ⟨hbef, -, -⟩ | ⟨-, ⟨t, htag⟩, -⟩ := h.get_cases
    · exact hbef
    · rw [htag] at hnull
      cases hnull
  · obtain ⟨-, hnull, -⟩ | ⟨hlast, -, -⟩ := h.get_cases
    · rw [htag] at hnull
      cases hnull
    · exact hlast

/-- `save:` never writes a tag: if the getter answers anything, the document has no tag. -/
theorem Reached.save_property (h : Reached before last o) : (save o).property = before.map .tag := by
  cases hdir : o.needsSave with
  | false =>
    rw [save, SaveSteps.save_of_isClean (by simp [saveSteps, hdir])]
    exact h.property
  | true =>
    rw [save, SaveSteps.save_of_changed (by simp [saveSteps, hdir])]
    obtain ⟨hbef, -, -⟩ | ⟨-, -, hans⟩ := h.get_cases
    · have hpr : (cloudKitChangeTag o).2.property = none := by
        rw [h.get.property, hbef, map_none]
      simp [saveSteps, hpr, hbef]
    · simp [saveSteps, hans, h.get.property]

theorem Reached.save (h : Reached before last o) : Reached before last (ChangeTag.save o) := by
  have hpr := h.save_property
  cases hdir : o.needsSave with
  | false =>
    rw [ChangeTag.save, SaveSteps.save_of_isClean (by simp [saveSteps, hdir])]
    exact h
  | true =>
    rw [ChangeTag.save, SaveSteps.save_of_changed (by simp [saveSteps, hdir])] at hpr ⊢
    exact ⟨hpr, hpr, h.get.of_null, h.get.of_tag, h.of_before⟩

theorem Reached.run (h : Reached before last o) (event : TagEvent) :
    Reached before (event.lastAssigned last) (event.run o) := by
  cases event with
  | assign t => exact h.assign t
  | clear => exact h.clear
  | get => exact h.get
  | change => exact ⟨h.property, h.saved, h.of_null, h.of_tag, h.of_before⟩
  | save => exact h.save

theorem Reached.after (h : Reached before last o) (events : List TagEvent) :
    Reached before (lastAssigned events last) (after events o) := by
  induction events generalizing last o with
  | nil => exact h
  | cons event events ih => exact ih (h.run event)

/-- The getter never returns the last tag assigned, nor does it in the object loaded after a save;
what is saved is the tag from before. -/
theorem cloudKitChangeTag_ne_lastAssigned (before : Option String) (events : List TagEvent) :
    (cloudKitChangeTag (after events (loaded (before.map .tag)))).1 ≠
        (lastAssigned events before).map .tag ∧
      (save (after events (loaded (before.map .tag)))).saved = before.map .tag ∧
      (cloudKitChangeTag (loaded (save (after events (loaded (before.map .tag)))).saved)).1 ≠
        (lastAssigned events before).map .tag := by
  have hrea := (reached_loaded (id : before.isSome → before.isSome)).after events
  have hsav := hrea.save.saved
  refine ⟨hrea.get_ne, hsav, ?_⟩
  -- the new object starts with the tag from before the history, whatever was assigned since
  rw [hsav]
  exact (reached_loaded hrea.of_before).get_ne

/-- A new object given `1a` answers `nil`, and `NSNull` once it was saved and loaded. -/
theorem cloudKitChangeTag_assigned :
    (cloudKitChangeTag (after [.assign "1a"] (loaded none))).1 = none ∧
      (save (after [.assign "1a", .change] (loaded none))).saved = none ∧
      (cloudKitChangeTag (loaded (save (after [.assign "1a", .change] (loaded none))).saved)).1 =
        some .null := by
  decide

end Feather.Model.ChangeTag
