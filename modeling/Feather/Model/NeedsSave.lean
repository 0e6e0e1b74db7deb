import Feather.Model.Persist

/-!
# The `needsSave` flags over a run

After a change the object and its embedding objects should be marked, up to the managed object, and
after a save no embedded object should be.

`setValue:ofProperty:` does not mark the object whose value it removes, and `save:` clears the flags
only of the objects in the managed object's own properties.
-/

namespace Feather.Model

open Keyed CBLModel

/-- The object and all its embedding objects are marked. -/
def Marked (o : ManagedObject) : Chain → Prop
  | [] => o.needsSave = true
  | place :: embedder =>
    o.properties.labelAt (path (place :: embedder)) = some (.object true) ∧ Marked o embedder

/-- Not a marked object. -/
def Label.Clear (label : Label) : Prop :=
  label ≠ .object true

instance : DecidablePred Label.Clear := fun label => inferInstanceAs (Decidable (label ≠ _))

theorem Label.clear_setNeedsSave_false (label : Label) : (label.setNeedsSave false).Clear := by
  cases label <;> simp [Label.setNeedsSave, Label.Clear]

/-- What is asked of the managed object and its embedded objects. -/
inductive Call
  | setValue (place : Place) (embedder : Chain) (value : Option Value) (property : Key)
  | setModel (place : Place) (embedder : Chain) (documentID : Option String) (property : Key)
  | save (context : SaveContext)

section

variable [CBLModel]

namespace Call

/-- One call. -/
def run (o : ManagedObject) : Call → ManagedObject
  | setValue place embedder value property => Model.setValue place embedder value property o
  | setModel place embedder documentID property =>
    Model.setModel (place :: embedder) documentID property o
  | save context => Model.save context o

/-- The object that a change is asked of is embedded. -/
def Valid (o : ManagedObject) : Call → Prop
  | setValue place embedder _ _ => Embedded o (place :: embedder)
  | setModel place embedder _ _ => Embedded o (place :: embedder)
  | save _ => True

/-- The flags are right after the call. -/
def Right (o : ManagedObject) (call : Call) : Prop :=
  match call with
  | setValue place embedder value property =>
    valueForKey o (place :: embedder) property ≠ value →
      Marked (call.run o) (place :: embedder)
  | setModel place embedder documentID property =>
    valueForKey o (place :: embedder) property ≠ documentID.map (fun s => .value (.string s)) →
      Marked (call.run o) (place :: embedder)
  | save _ => (call.run o).properties.All Label.Clear

/-- A value is removed only from a marked object, and at a save nothing below the managed object's
own properties is marked. -/
def Meets (o : ManagedObject) : Call → Prop
  | setValue place embedder value property =>
    valueForKey o (place :: embedder) property ≠ value → value = none →
      o.properties.labelAt (path (place :: embedder)) = some (.object true)
  | setModel _ _ _ _ => True
  | save context =>
    if isClean o then o.properties.All Label.Clear
    else (prepareSave context o).properties.AllBelow Label.Clear

end Call

/-- `p` holds of every call of a run, in the state that it is made in. -/
def Along (p : ManagedObject → Call → Prop) : List Call → ManagedObject → Prop
  | [], _ => True
  | call :: calls, o => p o call ∧ Along p calls (call.run o)

end

section Flags

variable {o : ManagedObject} {place : Place} {embedder : Chain}

theorem labelAt_setNeedsSave_self (h : Embedded o (place :: embedder)) (b : Bool) :
    (setNeedsSave (place :: embedder) b o).properties.labelAt (path (place :: embedder)) =
      some (.object b) := by
  obtain ⟨b', properties, hnode⟩ := h.exists_object
  rw [Tree.labelAt, setNeedsSave, Tree.nodeAt_modifyAt_self hnode]
  rfl

theorem labelAt_assignProperty_self (h : Embedded o (place :: embedder)) (property : Key)
    (value : Option Value) :
    (assignProperty (place :: embedder) property value o).properties.labelAt
      (path (place :: embedder)) = o.properties.labelAt (path (place :: embedder)) := by
  obtain ⟨b, properties, hnode⟩ := h.exists_object
  rw [Tree.labelAt, assignProperty, Tree.nodeAt_modifyAt_self hnode, Tree.labelAt, hnode]
  rfl

theorem labelAt_markNeedsSave {chain : Chain} (h : Embedded o chain) {qs : List Key}
    (hqs : (path chain).length < qs.length) :
    (markNeedsSave chain o).properties.labelAt qs = o.properties.labelAt qs := by
  induction chain generalizing o with
  | nil => rfl
  | cons place embedder ih =>
    obtain ⟨b, properties, hnode⟩ := h.exists_object
    have hlt := length_path_lt place embedder
    rw [markNeedsSave, ih (h.setNeedsSave true).2.2 (by omega)]
    apply Tree.labelAt_modifyAt_of_ne hnode
    rintro rfl
    omega

theorem marked_markNeedsSave {chain : Chain} (h : Embedded o chain) :
    Marked (markNeedsSave chain o) chain := by
  induction chain generalizing o with
  | nil => rfl
  | cons place embedder ih =>
    have hmkd := (h.setNeedsSave true).2.2
    constructor
    · rw [markNeedsSave, labelAt_markNeedsSave hmkd (length_path_lt place embedder)]
      exact labelAt_setNeedsSave_self h true
    · exact ih hmkd

theorem marked_setValue_iff [CBLModel] (h : Embedded o (place :: embedder)) {value : Option Value}
    {property : Key} (hnew : valueForKey o (place :: embedder) property ≠ value) :
    Marked (setValue place embedder value property o) (place :: embedder) ↔
      (value = none → o.properties.labelAt (path (place :: embedder)) = some (.object true)) := by
  have hasg := h.assignProperty property value
  have hlt := length_path_lt place embedder
  rw [setValue_eq h (.inr hnew)]
  cases value with
  | none =>
    have hrcd := hasg.2.2.markPropertyNeedsSave (rootKey place embedder)
    simp only [Option.isSome_none, Bool.false_eq_true, if_false, true_imp_iff, Marked]
    rw [labelAt_markNeedsSave hrcd hlt, ← labelAt_assignProperty_self h property none]
    exact and_iff_left (marked_markNeedsSave hrcd)
  | some v =>
    have hmkd := hasg.setNeedsSave true
    have hrcd := hmkd.2.2.markPropertyNeedsSave (rootKey place embedder)
    simp only [Option.isSome_some, if_true, Marked]
    rw [labelAt_markNeedsSave hrcd hlt]
    constructor
    · intro _ hnone
      cases hnone
    · intro _
      exact ⟨labelAt_setNeedsSave_self hasg true, marked_markNeedsSave hrcd⟩

theorem marked_setModel (h : Embedded o (place :: embedder)) {documentID : Option String}
    {property : Key}
    (hnew : valueForKey o (place :: embedder) property ≠
      documentID.map fun s => .value (.string s)) :
    Marked (setModel (place :: embedder) documentID property o) (place :: embedder) := by
  rw [setModel, if_neg fun hsame => hnew hsame.2]
  exact marked_markNeedsSave (h.assignProperty property _)

theorem all_clear_save_iff [CBLModel] (context : SaveContext) :
    (save context o).properties.All Label.Clear ↔
      if isClean o then o.properties.All Label.Clear
      else (prepareSave context o).properties.AllBelow Label.Clear := by
  cases hcln : isClean o with
  | true =>
    have hclean : (saveSteps context).isClean o = true := hcln
    simp [save, SaveSteps.save_of_isClean hclean]
  | false =>
    rw [save, SaveSteps.save_of_changed hcln, if_neg Bool.false_ne_true,
      ← properties_writeDocument (prepareSave context o)]
    exact Tree.all_mapLabels Label.clear_setNeedsSave_false _

end Flags

theorem Call.right_iff [CBLModel] {o : ManagedObject} {call : Call} (h : call.Valid o) :
    call.Right o ↔ call.Meets o := by
  cases call with
  | setValue place embedder value property =>
    exact forall_congr' fun hnew => marked_setValue_iff h hnew
  | setModel place embedder documentID property =>
    exact iff_true_intro fun hnew => marked_setModel h hnew
  | save context => exact all_clear_save_iff context

/-- The flags are right after every call of a run exactly if every call meets the condition. -/
theorem needsSave_right_iff [CBLModel] (calls : List Call) (o : ManagedObject)
    (hvalid : Along (fun o call => call.Valid o) calls o) :
    Along (fun o call => call.Right o) calls o ↔ Along (fun o call => call.Meets o) calls o := by
  induction calls generalizing o with
  | nil => rfl
  | cons call calls ih =>
    obtain ⟨hcall, hcal⟩ := hvalid
    exact and_congr (Call.right_iff hcall) (ih _ hcal)

/-- A value and a reference of a directly embedded object are set, each followed by a save. -/
theorem needsSave_right_direct :
    Along (fun o call => call.Right o)
      [.setValue ⟨.name "embeddedTestObject", none⟩ [] (some (.value (.string "x")))
          (.name "aStringTypedProperty"), .save sampleContext,
        .setModel ⟨.name "embeddedTestObject", none⟩ [] (some "doc2")
          (.name "embeddedManagedObjectProperty"),
        .save sampleContext] sampleManagedObject := by
  apply (needsSave_right_iff _ _ _).2
  · refine ⟨?_, ?_, trivial, ?_, trivial⟩
    · rintro - ⟨⟩
    · unfold Call.Meets
      decide
    · unfold Call.Meets
      decide
  · refine ⟨⟨⟨false, rfl⟩, ?_, trivial⟩, trivial, ⟨⟨false, rfl⟩, ?_, trivial⟩, trivial, trivial⟩
    · rintro ⟨⟩
    · rintro ⟨⟩

/-- An object loses a value and is not marked; an object in an array is still marked after the save.
-/
theorem needsSave_wrong :
    let removed := setValue ⟨.name "embeddedTestObject", none⟩ [] none
      (.name "embeddedManagedObjectProperty") sampleManagedObject
    let saved := save sampleContext
      (setValue ⟨.name "embeddedArrayOfTestObjects", some (.index 1)⟩ []
        (some (.value (.string "c"))) (.name "aStringTypedProperty") sampleManagedObject)
    valueForKey sampleManagedObject [⟨.name "embeddedTestObject", none⟩]
        (.name "embeddedManagedObjectProperty") = some (.value (.string "doc1")) ∧
      valueForKey removed [⟨.name "embeddedTestObject", none⟩]
        (.name "embeddedManagedObjectProperty") = none ∧
      removed.properties.labelAt [.name "embeddedTestObject"] = some (.object false) ∧
      saved.needsSave = false ∧
      saved.properties.labelAt [.name "embeddedArrayOfTestObjects", .index 1] =
        some (.object true) := by
  decide

end Feather.Model
