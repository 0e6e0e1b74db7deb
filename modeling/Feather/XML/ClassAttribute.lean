import Feather.Program.Calls
import Feather.Strings.Words
import Feather.XML.Ampersand

/-!
# The class attribute

`addClass:`, `removeClass:` and `hasClass:` work on the string value of the attribute `class`, in
which names stand between white space.  Over any sequence of calls they are insertion, deletion and
membership for the set of these names.
-/

namespace Feather.XML

open Program Words List

variable {marks : CombiningMarks} {attributes : List Attribute} {a : Attribute}

/-! ### Attributes -/

/-- `-attributeForName:` -/
def attributeForName (attributes : List Attribute) (name : NSString) : Option Attribute :=
  attributes.find? fun a => decide (a.name = name)

/-- `-setStringValue:` of the attribute of a given name -/
def setAttributeValue (name value : NSString) : List Attribute → List Attribute
  | [] => []
  | a :: attributes =>
    if a.name = name then { a with stringValue := value } :: attributes
    else a :: setAttributeValue name value attributes

/-- `-containsSubstring:` -/
def containsSubstring (marks : CombiningMarks) (s substring : NSString) : Bool :=
  (marks.indexOfOccurrence substring s).isSome

/-- `-arrayByRemovingObject:`, which removes all objects equal to the given one -/
def arrayByRemovingObject (array : List NSString) (object : NSString) : List NSString :=
  array.filter fun o => decide (o ≠ object)

/-! ### The methods

They answer with the attributes of the receiver and the returned value. -/

/-- The attributes of an element that has an attribute `class`. -/
def withClassAttribute (attributes : List Attribute) : List Attribute :=
  if attributeForName attributes (literal "class") = none then
    attributes ++ [⟨literal "class", []⟩]
  else attributes

/-- The value of the attribute `class`. -/
def classValue (attributes : List Attribute) : NSString :=
  ((attributeForName attributes (literal "class")).map Attribute.stringValue).getD []

/-- `-addClass:` -/
def addClass (marks : CombiningMarks) (attributes : List Attribute) (klass : NSString) :
    List Attribute × Bool :=
  let attributes := withClassAttribute attributes
  let classes := stringByTrimmingCharactersInSet whitespaceAndNewlineCharacterSet
    (classValue attributes)
  if classes.length = 0 then (setAttributeValue (literal "class") klass attributes, true)
  else if containsSubstring marks classes klass &&
      (componentsSeparatedByCharactersInSet classes whitespaceAndNewlineCharacterSet).contains klass
  then (attributes, false)
  else (setAttributeValue (literal "class") (classes ++ literal " " ++ klass) attributes, true)

/-- `-hasClass:` -/
def hasClass (attributes : List Attribute) (klass : NSString) : Bool :=
  match attributeForName attributes (literal "class") with
  | none => false
  | some classAttribute => (componentsSeparatedByCharactersInSet classAttribute.stringValue
      whitespaceAndNewlineCharacterSet).contains klass

/-- `-removeClass:` -/
def removeClass (attributes : List Attribute) (klass : NSString) : List Attribute × Bool :=
  match attributeForName attributes (literal "class") with
  | none => (attributes, false)
  | some classAttribute =>
    let classes := componentsSeparatedByCharactersInSet classAttribute.stringValue
      whitespaceAndNewlineCharacterSet
    if classes.contains klass then
      (setAttributeValue (literal "class")
        (componentsJoinedByString (arrayByRemovingObject classes klass) (literal " ")) attributes,
        true)
    else (attributes, false)

/-! ### The set of class names -/

/-- The class names of an element. -/
def classNames (attributes : List Attribute) : Finset NSString :=
  (words whitespaceAndNewlineCharacterSet (classValue attributes)).toFinset

/-- A call of one of the three methods. -/
inductive ClassCall
  | add (klass : NSString)
  | remove (klass : NSString)
  | has (klass : NSString)
  deriving DecidableEq, Repr

/-- The argument of a call. -/
def ClassCall.klass : ClassCall → NSString
  | .add klass => klass
  | .remove klass => klass
  | .has klass => klass

/-- A call on the attributes of an element. -/
def ClassCall.step (marks : CombiningMarks) : ClassCall → List Attribute → List Attribute × Bool
  | .add klass, attributes => addClass marks attributes klass
  | .remove klass, attributes => removeClass attributes klass
  | .has klass, attributes => (attributes, hasClass attributes klass)

/-- The operation on a set: insertion and deletion answer whether they change it. -/
def ClassCall.onSet : ClassCall → Finset NSString → Finset NSString × Bool
  | .add klass, names => (insert klass names, decide (klass ∉ names))
  | .remove klass, names => (names.erase klass, decide (klass ∈ names))
  | .has klass, names => (names, decide (klass ∈ names))

/-! ### Lemmas on attributes -/

theorem attributeForName_setAttributeValue {name : NSString}
    (h : attributeForName attributes name = some a) (value : NSString) :
    attributeForName (setAttributeValue name value attributes) name =
      some { a with stringValue := value } := by
  unfold attributeForName at *
  induction attributes with
  | nil => simp at h
  | cons b attributes ih =>
    rw [setAttributeValue]
    by_cases hb : b.name = name
    · rw [find?_cons_of_pos (by simpa using hb), Option.some.injEq] at h
      subst h
      rw [if_pos hb, find?_cons_of_pos (by simpa using hb)]
    · rw [find?_cons_of_neg (by simpa using hb)] at h
      rw [if_neg hb, find?_cons_of_neg (by simpa using hb), ih h]

theorem classValue_setAttributeValue (h : attributeForName attributes (literal "class") = some a)
    (value : NSString) :
    classValue (setAttributeValue (literal "class") value attributes) = value := by
  rw [classValue, attributeForName_setAttributeValue h]
  rfl

theorem withClassAttribute_eq (attributes : List Attribute) :
    classValue (withClassAttribute attributes) = classValue attributes ∧
      ∃ a, attributeForName (withClassAttribute attributes) (literal "class") = some a := by
  unfold withClassAttribute
  cases h : attributeForName attributes (literal "class") with
  | some a =>
    refine ⟨?_, a, ?_⟩ <;> simp [h]
  | none =>
    have hadd : attributeForName (attributes ++ [⟨literal "class", []⟩]) (literal "class") =
        some ⟨literal "class", []⟩ := by
      unfold attributeForName at h ⊢
      rw [find?_append, h]
      rfl
    refine ⟨?_, ⟨literal "class", []⟩, ?_⟩
    · simp [classValue, h, hadd]
    · simp [hadd]

theorem classValue_of_attributeForName
    (h : attributeForName attributes (literal "class") = some a) :
    classValue attributes = a.stringValue := by
  rw [classValue, h]
  rfl

theorem classValue_of_none (h : attributeForName attributes (literal "class") = none) :
    classValue attributes = [] := by
  rw [classValue, h]
  rfl

theorem containsSubstring_append {substring Y : NSString} (h : substring ≠ [])
    (hY : marks.goesOn Y = false) (X : NSString) :
    containsSubstring marks (X ++ (substring ++ Y)) substring = true := by
  induction X with
  | nil =>
    obtain ⟨c, t, rfl⟩ := exists_cons_of_ne_nil h
    have hp : marks.occursAt (c :: t) (c :: (t ++ Y)) = true :=
      (marks.occursAt_iff _ _).2 ⟨Y, rfl, hY⟩
    rw [containsSubstring, nil_append, cons_append, CombiningMarks.indexOfOccurrence,
      if_pos hp]
    rfl
  | cons x X ih =>
    rw [containsSubstring, cons_append, CombiningMarks.indexOfOccurrence]
    split_ifs
    · rfl
    · rw [Option.isSome_map]
      exact ih

/-! ### Each call -/

section Call

variable {klass : NSString} (h : IsWord whitespaceAndNewlineCharacterSet klass)
include h

/-- A class name is among the components of a string if it is one of its words. -/
theorem contains_components_iff (s : NSString) :
    (componentsSeparatedByCharactersInSet s whitespaceAndNewlineCharacterSet).contains klass =
      decide (klass ∈ words whitespaceAndNewlineCharacterSet s) := by
  rw [componentsSeparatedByCharactersInSet, contains_eq_mem, decide_eq_decide,
    mem_words_iff h.ne_nil]

/-- The search for a substring finds every class name, since white space is no mark. -/
theorem containsSubstring_of_mem {s : NSString}
    (hs : klass ∈ words whitespaceAndNewlineCharacterSet s) :
    containsSubstring marks s klass = true := by
  obtain ⟨X, Y, rfl, hY⟩ := exists_of_mem_splitOnP (mem_of_mem_filter hs)
  refine containsSubstring_append h.ne_nil ?_ X
  cases Y with
  | nil => exact marks.nil
  | cons c Y => exact marks.goesOn_cons (.inr (hY c rfl)) Y

theorem hasClass_eq (attributes : List Attribute) :
    hasClass attributes klass = decide (klass ∈ classNames attributes) := by
  unfold hasClass
  cases ha : attributeForName attributes (literal "class") with
  | none => simp [classNames, classValue_of_none ha]
  | some a =>
    simp only [contains_components_iff h, classNames, classValue_of_attributeForName ha,
      mem_toFinset]

/-- Adding a class name inserts it and answers whether it was not there. -/
theorem addClass_eq (attributes : List Attribute) :
    classNames (addClass marks attributes klass).1 = insert klass (classNames attributes) ∧
      (addClass marks attributes klass).2 = decide (klass ∉ classNames attributes) := by
  obtain ⟨hval, a, ha⟩ := withClassAttribute_eq attributes
  generalize hcss : stringByTrimmingCharactersInSet whitespaceAndNewlineCharacterSet
    (classValue attributes) = classes
  have hnam : classNames attributes =
      (words whitespaceAndNewlineCharacterSet classes).toFinset := by
    rw [classNames, ← hcss, stringByTrimmingCharactersInSet, words_rdropWhile, words_dropWhile]
  have hset : ∀ value, classNames (setAttributeValue (literal "class") value
      (withClassAttribute attributes)) =
        (words whitespaceAndNewlineCharacterSet value).toFinset := by
    intro value
    rw [classNames, classValue_setAttributeValue ha]
  simp only [addClass, hval, hcss, contains_components_iff h]
  by_cases hemp : classes.length = 0
  · -- the attribute gets the name as its value
    rw [length_eq_zero_iff] at hemp
    rw [hemp] at hnam
    rw [if_pos (by rw [hemp]; rfl), hset, hnam, words_of_isWord h]
    exact ⟨rfl, rfl⟩
  · rw [if_neg hemp]
    by_cases hmem : klass ∈ words whitespaceAndNewlineCharacterSet classes
    · have hin : klass ∈ classNames attributes := by rwa [hnam, mem_toFinset]
      rw [if_pos (by simp [hmem, containsSubstring_of_mem h hmem]), Finset.insert_eq_self.2 hin]
      exact ⟨by rw [classNames, hval, classNames], by simp [hin]⟩
    · have hnin : klass ∉ classNames attributes := by rwa [hnam, mem_toFinset]
      have hwds : words whitespaceAndNewlineCharacterSet (classes ++ literal " " ++ klass) =
          words whitespaceAndNewlineCharacterSet classes ++ [klass] := by
        rw [append_assoc, ← words_of_isWord h]
        exact words_append_cons (by decide) classes klass
      rw [if_neg (by simp [hmem]), hset, hwds, hnam, toFinset_append, Finset.union_comm]
      exact ⟨rfl, by simpa [hnam] using hnin⟩

/-- Removing a class name erases it and answers whether it was there. -/
theorem removeClass_eq (attributes : List Attribute) :
    classNames (removeClass attributes klass).1 = (classNames attributes).erase klass ∧
      (removeClass attributes klass).2 = decide (klass ∈ classNames attributes) := by
  unfold removeClass
  cases ha : attributeForName attributes (literal "class") with
  | none => simp [classNames, classValue_of_none ha]
  | some a =>
    have hnam : classNames attributes =
        (words whitespaceAndNewlineCharacterSet a.stringValue).toFinset := by
      rw [classNames, classValue_of_attributeForName ha]
    simp only [contains_components_iff h, decide_eq_true_eq]
    by_cases hmem : klass ∈ words whitespaceAndNewlineCharacterSet a.stringValue
    · rw [if_pos hmem]
      refine ⟨?_, by simp [hnam, hmem]⟩
      have hpie : ∀ w ∈ arrayByRemovingObject (componentsSeparatedByCharactersInSet
          a.stringValue whitespaceAndNewlineCharacterSet) klass,
          ∀ c ∈ w, whitespaceAndNewlineCharacterSet c = false := by
        intro w hw
        exact mem_splitOnP (mem_of_mem_filter hw)
      have hjoin := words_intercalate (p := whitespaceAndNewlineCharacterSet)
        (show whitespaceAndNewlineCharacterSet (unichar ' ') = true by decide) hpie
      rw [classNames, classValue_setAttributeValue ha, componentsJoinedByString,
        show literal " " = [unichar ' '] from rfl, hjoin, hnam]
      ext v
      simp only [words, arrayByRemovingObject,
        mem_toFinset, mem_filter, Finset.mem_erase, decide_eq_true_eq]
      tauto
    · have hnin : klass ∉ classNames attributes := by rwa [hnam, mem_toFinset]
      rw [if_neg hmem, Finset.erase_eq_of_notMem hnin]
      exact ⟨rfl, by simp [hnin]⟩

end Call

theorem ClassCall.simulates {call : ClassCall}
    (h : IsWord whitespaceAndNewlineCharacterSet call.klass) :
    Simulates (ClassCall.step marks) ClassCall.onSet classNames call := by
  intro attributes
  cases call with
  | add klass =>
    obtain ⟨hset, hans⟩ := addClass_eq h attributes
    exact Prod.ext hset hans
  | remove klass =>
    obtain ⟨hset, hans⟩ := removeClass_eq h attributes
    exact Prod.ext hset hans
  | has klass => exact Prod.ext rfl (hasClass_eq h attributes)

/-- Every sequence of calls behaves as on the set of class names. -/
theorem classCalls_refine_set (marks : CombiningMarks) (attributes : List Attribute)
    (calls : List ClassCall)
    (h : ∀ call ∈ calls, IsWord whitespaceAndNewlineCharacterSet call.klass) :
    (classNames (runCalls (ClassCall.step marks) calls attributes).1,
        (runCalls (ClassCall.step marks) calls attributes).2) =
      runCalls ClassCall.onSet calls (classNames attributes) :=
  Simulates.run (fun call hcall => ClassCall.simulates (h call hcall)) attributes

/-- `class="note\nwarn  note"` -/
theorem classCalls_refine_set_note :
    (runCalls (ClassCall.step .overlay) [.has (literal "not"), .add (literal "not"), .remove (literal "note"),
        .remove (literal "note"), .add (literal "warn")]
      [⟨literal "class", literal "note\nwarn  note"⟩]).2 = [false, true, true, false, false] ∧
    classNames (runCalls (ClassCall.step .overlay) [.has (literal "not"), .add (literal "not"),
        .remove (literal "note"), .remove (literal "note"), .add (literal "warn")]
      [⟨literal "class", literal "note\nwarn  note"⟩]).1 = {literal "warn", literal "not"} := by
  have hcal : ∀ call ∈ [ClassCall.has (literal "not"), .add (literal "not"),
      .remove (literal "note"), .remove (literal "note"), .add (literal "warn")],
      IsWord whitespaceAndNewlineCharacterSet call.klass := by
    decide
  have hrun := classCalls_refine_set .overlay [⟨literal "class", literal "note\nwarn  note"⟩] _ hcal
  rw [Prod.mk.injEq] at hrun
  rw [hrun.1, hrun.2]
  exact ⟨by decide, by decide⟩

end Feather.XML
