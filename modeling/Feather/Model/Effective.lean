import Feather.Controllers.Equivalence
import Feather.Order.Ancestry

/-!
# Effective properties

A dynamic property `effectiveX` of a managed object stands for `x` of the nearest object on the way
up that has a value for it (`MPManagedObject.m`).  The loop over the parents takes `effective` from
the front of the name, the getter takes out all its occurrences.
-/

namespace Feather.Model

open Ancestry List Option
open Feather.Controllers (removeOccurrences camelCased lowercasingFirst)
open Feather.Embedding (hasPrefix)

/-! ### The name of the property -/

/-- The expression `^effective` replaced by nothing. -/
def withoutEffectivePrefix (property : String) : String :=
  if hasPrefix "effective" property then String.ofList (property.toList.drop 9) else property

/-- All occurrences of `effective` replaced by nothing. -/
def withoutEffective (property : String) : String :=
  String.ofList (removeOccurrences "effective".toList 0 property.toList)

/-- `x`, for the part `X` of a name `effectiveX`. -/
def underlyingName (X : String) : String := String.ofList (lowercasingFirst X.toList)

section Names

variable {target s t : List Char}

theorem removeOccurrences_skip (s t : List Char) :
    removeOccurrences target s.length (s ++ t) = removeOccurrences target 0 t := by
  induction s with
  | nil => rfl
  | cons c s ih => exact ih

theorem removeOccurrences_of_not_infix (h : ¬ target <:+: s) : removeOccurrences target 0 s = s := by
  induction s with
  | nil => rfl
  | cons c s ih =>
    have hfro : target.isPrefixOf (c :: s) = false := by
      rw [Bool.eq_false_iff, ne_eq, isPrefixOf_iff_prefix]
      exact fun hfro => h hfro.isInfix
    rw [removeOccurrences, if_neg (by simp [hfro]), ih fun hs => h (infix_cons hs)]

/-- An occurrence at the front, with none behind it. -/
theorem removeOccurrences_append (htgt : target ≠ []) (h : ¬ target <:+: s) :
    removeOccurrences target 0 (target ++ s) = s := by
  obtain ⟨c, rest, rfl⟩ := exists_cons_of_ne_nil htgt
  have hfro : (c :: rest).isPrefixOf (c :: (rest ++ s)) = true := by
    rw [ isPrefixOf_iff_prefix]
    exact prefix_append (c :: rest) s
  rw [cons_append, removeOccurrences, if_pos hfro, length_cons, Nat.add_sub_cancel,
    removeOccurrences_skip, removeOccurrences_of_not_infix h]

theorem withoutEffective_append {X : String} (h : ¬ "effective".toList <:+: X.toList) :
    withoutEffective ("effective" ++ X) = X := by
  rw [withoutEffective, String.toList_append, removeOccurrences_append (by decide) h,
    String.ofList_toList]

theorem withoutEffectivePrefix_append (X : String) :
    withoutEffectivePrefix ("effective" ++ X) = X := by
  have hfro : hasPrefix "effective" ("effective" ++ X) = true := by
    rw [hasPrefix, isPrefixOf_iff_prefix, String.toList_append]
    exact prefix_append _ _
  rw [withoutEffectivePrefix, if_pos hfro, String.toList_append,
    drop_left' (by decide), String.ofList_toList]

/-- A camel-case name is one component. -/
theorem camelCased_eq {X : String} (h : ∀ c ∈ X.toList, c.isAlphanum) :
    camelCased X = underlyingName X := by
  rw [camelCased, splitOnP_eq_singleton fun c hc => by rw [h c hc]; rfl]
  simp [underlyingName]

end Names

/-! ### The getters -/

/-- The messages by which a number is read. -/
inductive Conversion
  | intValue
  | unsignedIntValue
  | longValue
  | unsignedLongValue
  | longLongValue
  | unsignedLongLongValue
  | boolValue
  | floatValue
  | doubleValue
  deriving DecidableEq

/-- The first character of an encoded property type; `id` comes with the class. -/
inductive PropertyType
  | id (propertyClass : String)
  | int
  | sht
  | usht
  | chr
  | uchr
  | uint
  | lng
  | ulng
  | lngLng
  | ulngLng
  | bool
  | flt
  | dbl
  | other
  deriving DecidableEq

/-- Objects with their values: `impForGetterOfProperty` is the generated getter of a class, `number`
reads a value by a message, and `zero` is what a message to `nil` returns. -/
structure ObjectRuntime (Object Value Scalar : Type) where
  parentPropertyName : Object → String
  valueForKey : Object → String → Option Object
  getValueOfProperty : Object → String → Option Value
  impForGetterOfProperty : String → String → Object → Option Value
  number : Conversion → Value → Scalar
  zero : Scalar

/-- What a getter returns. -/
inductive Returned (Value Scalar : Type)
  | object (value : Option Value)
  | scalar (value : Scalar)

namespace ObjectRuntime

variable {Object Value Scalar : Type} (rt : ObjectRuntime Object Value Scalar)

/-- The parent of an object, under the name that the class of the receiver gives. -/
def parent (receiver p : Object) : Option Object := rt.valueForKey p (rt.parentPropertyName receiver)

/-- `receiverForEffectivePropertyAccessorReceiver:property:` -/
def receiverForEffectivePropertyAccessor (fuel : ℕ) (effectiveReceiver : Object)
    (property : String) : Option Object :=
  let adjustedProperty := camelCased (withoutEffectivePrefix property)
  (search (rt.parent effectiveReceiver) (fun p => (rt.getValueOfProperty p adjustedProperty).isSome)
    fuel effectiveReceiver).map fun found => found.getD effectiveReceiver

/-- The getters that read a number, each by its own message. -/
def scalarGetter (conversion : Conversion) (property adjustedProperty : String) (fuel : ℕ)
    (receiver : Object) : Option (Returned Value Scalar) :=
  (rt.receiverForEffectivePropertyAccessor fuel receiver property).map fun effectiveReceiver =>
    .scalar (((rt.getValueOfProperty effectiveReceiver adjustedProperty).map
      (rt.number conversion)).getD rt.zero)

/-- `impForEffectivePropertyGetterOfProperty:ofType:`; `none` stands for `NULL`. -/
def impForEffectivePropertyGetter (property : String) (propertyType : PropertyType) :
    Option (ℕ → Object → Option (Returned Value Scalar)) :=
  let adjustedProperty := camelCased (withoutEffective property)
  match propertyType with
  | .id propertyClass => some fun fuel receiver =>
    (rt.receiverForEffectivePropertyAccessor fuel receiver property).map fun effectiveReceiver =>
      .object (rt.impForGetterOfProperty adjustedProperty propertyClass effectiveReceiver)
  | .int | .sht | .usht | .chr | .uchr => some (rt.scalarGetter .intValue property adjustedProperty)
  | .uint => some (rt.scalarGetter .unsignedIntValue property adjustedProperty)
  | .lng => some (rt.scalarGetter .longValue property adjustedProperty)
  | .ulng => some (rt.scalarGetter .unsignedLongValue property adjustedProperty)
  | .lngLng => some (rt.scalarGetter .longLongValue property adjustedProperty)
  | .ulngLng => some (rt.scalarGetter .unsignedLongLongValue property adjustedProperty)
  | .bool => some (rt.scalarGetter .boolValue property adjustedProperty)
  | .flt => some (rt.scalarGetter .floatValue property adjustedProperty)
  | .dbl => some (rt.scalarGetter .doubleValue property adjustedProperty)
  | .other => none

/-! ### What they return -/

/-- A stored value, or none, as a property of the type has it. -/
def returned (value : Option Value) : PropertyType → Returned Value Scalar
  | .int | .sht | .usht | .chr | .uchr => .scalar ((value.map (rt.number .intValue)).getD rt.zero)
  | .uint => .scalar ((value.map (rt.number .unsignedIntValue)).getD rt.zero)
  | .lng => .scalar ((value.map (rt.number .longValue)).getD rt.zero)
  | .ulng => .scalar ((value.map (rt.number .unsignedLongValue)).getD rt.zero)
  | .lngLng => .scalar ((value.map (rt.number .longLongValue)).getD rt.zero)
  | .ulngLng => .scalar ((value.map (rt.number .unsignedLongLongValue)).getD rt.zero)
  | .bool => .scalar ((value.map (rt.number .boolValue)).getD rt.zero)
  | .flt => .scalar ((value.map (rt.number .floatValue)).getD rt.zero)
  | .dbl => .scalar ((value.map (rt.number .doubleValue)).getD rt.zero)
  | .id _ | .other => .object value

variable {rt} {X : String} {receiver : Object}

/-- The loop finds the nearest object with a value, or comes back to the receiver. -/
theorem exists_receiver (hname : ∀ c ∈ X.toList, c.isAlphanum) (hends : Ends (rt.parent receiver) receiver) :
    ∃ found, Nearest (rt.parent receiver)
        (fun p => (rt.getValueOfProperty p (underlyingName X)).isSome) receiver found ∧
      ∃ bound, ∀ fuel ≥ bound,
        rt.receiverForEffectivePropertyAccessor fuel receiver ("effective" ++ X) =
          some (found.getD receiver) := by
  obtain ⟨found, hnst, bound, hsea⟩ := exists_search
    (fun p => (rt.getValueOfProperty p (underlyingName X)).isSome = true) hends
  refine ⟨found, hnst, bound, fun fuel hfuel => ?_⟩
  rw [receiverForEffectivePropertyAccessor, withoutEffectivePrefix_append, camelCased_eq hname,
    hsea fuel hfuel, map_some]

/-- Every getter reads the property at the receiver that the loop finds. -/
theorem exists_getter (hname : ∀ c ∈ X.toList, c.isAlphanum)
    (hX : ¬ "effective".toList <:+: X.toList) {propertyType : PropertyType}
    (htype : propertyType ≠ .other)
    (hread : ∀ propertyClass, propertyType = .id propertyClass → ∀ p,
      rt.impForGetterOfProperty (underlyingName X) propertyClass p =
        rt.getValueOfProperty p (underlyingName X)) :
    ∃ getter, rt.impForEffectivePropertyGetter ("effective" ++ X) propertyType = some getter ∧
      ∀ fuel receiver, getter fuel receiver =
        (rt.receiverForEffectivePropertyAccessor fuel receiver ("effective" ++ X)).map fun p =>
          rt.returned (rt.getValueOfProperty p (underlyingName X)) propertyType := by
  unfold impForEffectivePropertyGetter
  rw [withoutEffective_append hX, camelCased_eq hname]
  cases propertyType with
  | id propertyClass =>
    simp [hread propertyClass rfl, returned]
  | other => exact absurd rfl htype
  | _ => exact ⟨_, rfl, fun fuel receiver => rfl⟩

/-- The getter of `effectiveX` returns `x` of the nearest object that has a value. -/
theorem impForEffectivePropertyGetter_nearest (rt : ObjectRuntime Object Value Scalar) (X : String)
    (hname : ∀ c ∈ X.toList, c.isAlphanum) (hX : ¬ "effective".toList <:+: X.toList)
    (propertyType : PropertyType) (htype : propertyType ≠ .other) (receiver : Object)
    (hends : Ends (rt.parent receiver) receiver)
    (hread : ∀ propertyClass, propertyType = .id propertyClass → ∀ p,
      rt.impForGetterOfProperty (underlyingName X) propertyClass p =
        rt.getValueOfProperty p (underlyingName X)) :
    ∃ getter, rt.impForEffectivePropertyGetter ("effective" ++ X) propertyType = some getter ∧
      ∃ found, Nearest (rt.parent receiver)
          (fun p => (rt.getValueOfProperty p (underlyingName X)).isSome) receiver found ∧
        ∃ bound, ∀ fuel ≥ bound, getter fuel receiver = some (rt.returned
          (found.bind fun p => rt.getValueOfProperty p (underlyingName X)) propertyType) := by
  obtain ⟨getter, hget, hret⟩ := exists_getter hname hX htype hread
  obtain ⟨found, hnst, bound, hrec⟩ := exists_receiver (X := X) hname hends
  refine ⟨getter, hget, found, hnst, bound, fun fuel hfuel => ?_⟩
  rw [hret, hrec fuel hfuel, map_some]
  cases found with
  | some p => rfl
  | none =>
    -- the receiver is on its own way up, so that it has no value either
    have hnone : rt.getValueOfProperty receiver (underlyingName X) = none := by
      simpa using hnst receiver (Above.refl receiver)
    rw [getD_none, hnone, bind_none]

end ObjectRuntime

/-- Objects in one line, of which only the last has a title. -/
def titledLine : ObjectRuntime ℕ String ℕ where
  parentPropertyName _ := "parent"
  valueForKey p _ := if p = 0 then none else some (p - 1)
  getValueOfProperty p key := if p = 0 ∧ key = "title" then some "untitled" else none
  impForGetterOfProperty key _ p := if p = 0 ∧ key = "title" then some "untitled" else none
  number _ value := value.length
  zero := 0

theorem ends_titledLine (receiver p : ℕ) : Ends (titledLine.parent receiver) p := by
  induction p with
  | zero =>
    refine Acc.intro 0 fun q hq => ?_
    cases hq
  | succ p ih =>
    refine Acc.intro (p + 1) fun q hq => ?_
    cases hq
    exact ih

theorem impForEffectivePropertyGetter_titledLine :
    ∃ getter, titledLine.impForEffectivePropertyGetter "effectiveTitle" (.id "NSString") =
        some getter ∧
      ∃ found, Nearest (titledLine.parent 2)
          (fun p => (titledLine.getValueOfProperty p "title").isSome) 2 found ∧
        ∃ bound, ∀ fuel ≥ bound, getter fuel 2 = some (titledLine.returned
          (found.bind fun p => titledLine.getValueOfProperty p "title") (.id "NSString")) :=
  titledLine.impForEffectivePropertyGetter_nearest "Title" (List.all_eq_true.1 rfl) (by decide)
    (.id "NSString") nofun 2 (ends_titledLine 2 2) fun _ _ _ => rfl

end Feather.Model
