import Feather.Controllers.Hierarchy

/-!
# The class that names the zone of an object

The zone of an object is named after an equivalence class, the class of a controller.  The table of
these (`equivalenceClassForManagedObjectClass:` of `MPManagedObjectsController.m`) is filled
controller by controller, in the order of the runtime's class list.
-/

namespace Feather.Controllers

open Sync
open Feather.Embedding (hasPrefix)

/-- The name of a controller class. -/
def controllerClassName (className : String) : String := pluralizedString className ++ "Controller"

/-- `stringByReplacingOccurrencesOfString:withString:` with the empty string. -/
def removeOccurrences (target : List Char) : ℕ → List Char → List Char
  | _, [] => []
  | skip + 1, _ :: s => removeOccurrences target skip s
  | 0, c :: s =>
    if target.isPrefixOf (c :: s) then removeOccurrences target (target.length - 1) s
    else c :: removeOccurrences target 0 s

/-- The name of a class without the mark of the subclasses made to observe values. -/
def withoutNotifying (className : String) : String :=
  String.ofList (removeOccurrences "NSKVONotifying_".toList 0 className.toList)

namespace Hierarchy

variable (h : Hierarchy)

def managedObjectClassNames : List String := h.subclasses "MPManagedObject"

/-- The subclasses of `MPManagedObjectsController`, in the order of the runtime. -/
def controllerClasses : List String := h.subclasses "MPManagedObjectsController"

def managedObjectClassByControllerClassNameDictionary : Dictionary String String :=
  .withPairs (h.managedObjectClassNames.map fun className => (controllerClassName className, className))

/-- `+managedObjectClass` of a controller class -/
def managedObjectClass (mocClass : String) : Option String :=
  h.managedObjectClassByControllerClassNameDictionary.lookup mocClass

/-- The entries that one controller class makes; a class that has no objects makes none. -/
def equivalencePairs (mocClass : String) : List (String × String) :=
  match h.managedObjectClass mocClass with
  | none => []
  | some oClass => (h.subclasses oClass ++ [oClass]).map fun oSubclass => (oSubclass, mocClass)

/-- The later pairs replace the earlier ones. -/
def equivalenceDictionary : Dictionary String String :=
  .withPairs (h.controllerClasses.flatMap h.equivalencePairs)

/-- `equivalenceClassForManagedObjectClass:`, with `none` where an assertion fails. -/
def equivalenceClassForManagedObjectClass (moClass : String) : Option String :=
  if moClass = "MPManagedObject" ∨ "MPManagedObject" ∈ h.superclasses moClass then
    (h.equivalenceDictionary.lookup (withoutNotifying moClass)).bind h.managedObjectClass
  else none

/-- `recordZoneName()` -/
def recordZoneName (moClass : String) : Option String :=
  (h.equivalenceClassForManagedObjectClass moClass).map fun equivalenceClass =>
    withoutNotifying (withoutMP equivalenceClass)

/-! ### The table -/

/-- The class of the controller is the given one or above it. -/
def Manages (cls mocClass : String) : Prop :=
  ∃ oClass ∈ h.chain cls, h.managedObjectClass mocClass = some oClass

/-- The class nearest to `cls`, below `MPManagedObject`, that has a controller class. -/
def IsClosest (cls closest : String) : Prop :=
  ∃ below above, h.chain cls = below ++ closest :: above ∧ "MPManagedObject" ∈ above ∧
    controllerClassName closest ∈ h.controllerClasses ∧
    ∀ c ∈ below, controllerClassName c ∉ h.controllerClasses

/-- No other class takes the controller class of `closest`, and none above `cls` is listed behind
it. -/
structure IsLast (cls closest : String) : Prop where
  named : h.managedObjectClass (controllerClassName closest) = some closest
  last : ∃ before behind, h.controllerClasses = before ++ controllerClassName closest :: behind ∧
    ∀ mocClass ∈ behind, ¬h.Manages cls mocClass

variable {h} {cls closest mocClass oClass : String}

theorem managedObjectClass_eq_some (hcls : h.managedObjectClass mocClass = some oClass) :
    mocClass = controllerClassName oClass ∧ oClass ∈ h.managedObjectClassNames := by
  obtain ⟨className, hmem, heq⟩ := List.mem_map.1 (Dictionary.mem_of_lookup_withPairs hcls)
  cases heq
  exact ⟨rfl, hmem⟩

theorem mem_subclasses_append_self (hcls : cls ∈ h.managedObjectClassNames) :
    cls ∈ h.subclasses oClass ++ [oClass] ↔ oClass ∈ h.chain cls := by
  obtain ⟨hcl, hkvo, -⟩ := mem_subclasses.1 hcls
  rw [List.mem_append, List.mem_singleton, mem_subclasses, chain, List.mem_cons, or_comm,
    @eq_comm _ oClass cls]
  simp [hcl, hkvo]

theorem lookup_equivalencePairs (hcls : cls ∈ h.managedObjectClassNames) {found : String} :
    (Dictionary.withPairs (h.equivalencePairs mocClass)).lookup cls = some found ↔
      found = mocClass ∧ h.Manages cls mocClass := by
  rw [equivalencePairs, Manages]
  cases hcl : h.managedObjectClass mocClass with
  | none =>
    refine ⟨fun h => (by cases h), ?_⟩
    rintro ⟨-, oClass, -, hsome⟩
    cases hsome
  | some oClass =>
    rw [Dictionary.lookup_withPairs_map]
    simp only [mem_subclasses_append_self hcls]
    split_ifs with hmem
    · simp [hmem, eq_comm]
    · simp [hmem]

/-- The last of the controller classes that manage `cls` is in the table. -/
theorem lookup_equivalenceDictionary (hcls : cls ∈ h.managedObjectClassNames) :
    h.equivalenceDictionary.lookup cls = some mocClass ↔
      ∃ before behind, h.controllerClasses = before ++ mocClass :: behind ∧
        h.Manages cls mocClass ∧ ∀ m ∈ behind, ¬h.Manages cls m := by
  rw [equivalenceDictionary, Dictionary.lookup_withPairs_flatMap, List.findSome?_eq_some_iff]
  have hnone (m : String) : (Dictionary.withPairs (h.equivalencePairs m)).lookup cls = none ↔
      ¬h.Manages cls m := by
    rw [Option.eq_none_iff_forall_ne_some]
    constructor
    · exact fun hall hman => hall m ((lookup_equivalencePairs hcls).2 ⟨rfl, hman⟩)
    · exact fun hnot found hsome => hnot ((lookup_equivalencePairs hcls).1 hsome).2
  constructor
  · rintro ⟨behind, m, before, hrev, hm, hbhd⟩
    obtain ⟨rfl, hman⟩ := (lookup_equivalencePairs hcls).1 hm
    refine ⟨before.reverse, behind.reverse, ?_, hman, fun m' hm' => ?_⟩
    · rw [← List.reverse_reverse h.controllerClasses, hrev]
      simp
    · exact (hnone m').1 (hbhd m' (List.mem_reverse.1 hm'))
  · rintro ⟨before, behind, hspl, hman, hbhd⟩
    refine ⟨behind.reverse, mocClass, before.reverse, by simp [hspl],
      (lookup_equivalencePairs hcls).2 ⟨rfl, hman⟩, fun m' hm' => ?_⟩
    exact (hnone m').2 (hbhd m' (List.mem_reverse.1 hm'))

/-- The equivalence class is `closest` if its controller is the last in the list. -/
theorem equivalenceClass_eq_some_iff {moClass : String}
    (hsub : "MPManagedObject" ∈ h.superclasses moClass)
    (hname : withoutNotifying moClass ∈ h.managedObjectClassNames)
    (habv : closest ∈ h.chain (withoutNotifying moClass)) :
    h.equivalenceClassForManagedObjectClass moClass = some closest ↔
      h.IsLast (withoutNotifying moClass) closest := by
  rw [equivalenceClassForManagedObjectClass, if_pos (.inr hsub), Option.bind_eq_some_iff]
  constructor
  · rintro ⟨mocClass, hlk, hcls⟩
    obtain ⟨before, behind, hspl, -, hbhd⟩ := (lookup_equivalenceDictionary hname).1 hlk
    obtain ⟨rfl, -⟩ := managedObjectClass_eq_some hcls
    exact ⟨hcls, before, behind, hspl, hbhd⟩
  · rintro ⟨hcls, before, behind, hspl, hbhd⟩
    refine ⟨controllerClassName closest, (lookup_equivalenceDictionary hname).2 ?_, hcls⟩
    exact ⟨before, behind, hspl, ⟨closest, habv, hcls⟩, hbhd⟩

/-! ### The search upwards -/

theorem IsClosest.mem_chain (hclo : h.IsClosest cls closest) : closest ∈ h.chain cls := by
  obtain ⟨below, above, hch, -⟩ := hclo
  rw [hch]
  simp

end Hierarchy

/-! ### Two launches -/

/-- Two launches of one program: the runtime may list the classes in another order. -/
structure SameProgram (a b : Hierarchy) : Prop where
  classes : a.classes.Perm b.classes
  superclasses : a.superclasses = b.superclasses

theorem SameProgram.managedObjectClassNames {a b : Hierarchy} (hprg : SameProgram a b) :
    a.managedObjectClassNames.Perm b.managedObjectClassNames := by
  rw [Hierarchy.managedObjectClassNames, Hierarchy.subclasses, hprg.superclasses]
  exact hprg.classes.filter _

/-- Both launches take the class `closest`, which the controller class named after it manages, as the
equivalence class, and name the zone alike. -/
structure SameZone (a b : Hierarchy) (moClass closest : String) : Prop where
  first : a.equivalenceClassForManagedObjectClass moClass = some closest
  second : b.equivalenceClassForManagedObjectClass moClass = some closest
  zone : a.recordZoneName moClass = b.recordZoneName moClass

/-- The zone is named after the closest class with a controller in both launches, exactly if in both
no controller of a class above is listed behind that of the class. -/
theorem sameZone_iff (a b : Hierarchy) (hprogram : SameProgram a b) {moClass closest : String}
    (hsub : "MPManagedObject" ∈ a.superclasses moClass)
    (hname : withoutNotifying moClass ∈ a.managedObjectClassNames)
    (hclosest : a.IsClosest (withoutNotifying moClass) closest) :
    SameZone a b moClass closest ↔
      a.IsLast (withoutNotifying moClass) closest ∧ b.IsLast (withoutNotifying moClass) closest := by
  have hfst := Hierarchy.equivalenceClass_eq_some_iff hsub hname hclosest.mem_chain
  have hsnd : b.equivalenceClassForManagedObjectClass moClass = some closest ↔
      b.IsLast (withoutNotifying moClass) closest := by
    refine Hierarchy.equivalenceClass_eq_some_iff ?_ (hprogram.managedObjectClassNames.subset hname) ?_
    · rwa [← hprogram.superclasses]
    · rw [Hierarchy.chain, ← hprogram.superclasses]
      exact hclosest.mem_chain
  constructor
  · rintro ⟨ha, hb, -⟩
    exact ⟨hfst.1 ha, hsnd.1 hb⟩
  · rintro ⟨ha, hb⟩
    refine ⟨hfst.2 ha, hsnd.2 hb, ?_⟩
    rw [Hierarchy.recordZoneName, Hierarchy.recordZoneName, hfst.2 ha, hsnd.2 hb]

/-- The colors and the colors of a subclass, with their controllers in a given order. -/
def colorClasses (controllers : List String) : Hierarchy where
  classes := ["MPManagedObject", "MPColor", "MPRGBColor", "MPManagedObjectsController"] ++ controllers
  superclasses cls :=
    if cls = "MPRGBColor" then ["MPColor", "MPManagedObject"]
    else if cls = "MPColor" then ["MPManagedObject"]
    else if cls = "MPManagedObject" ∨ cls = "MPManagedObjectsController" then []
    else ["MPManagedObjectsController"]
  superclasses_tail := by
    intro cls superclass rest h
    split_ifs at h
    · cases h
      rfl
    · cases h
      rfl
    · cases h
      rfl

/-- Whichever controller is listed last decides the zone of the subclass. -/
theorem not_sameZone_colorClasses :
    (colorClasses ["MPColorsController", "MPRGBColorsController"]).recordZoneName "MPRGBColor" =
        some "RGBColor" ∧
      (colorClasses ["MPRGBColorsController", "MPColorsController"]).recordZoneName "MPRGBColor" =
        some "Color" ∧
      ¬SameZone (colorClasses ["MPColorsController", "MPRGBColorsController"])
        (colorClasses ["MPRGBColorsController", "MPColorsController"]) "MPRGBColor" "MPRGBColor" := by
  refine ⟨by decide +kernel, by decide +kernel, fun h => ?_⟩
  exact absurd h.zone (by decide +kernel)

/-- A launch with the one controller of the colors. -/
theorem sameZone_iff_colors :
    SameZone (colorClasses ["MPColorsController"]) (colorClasses ["MPColorsController"]) "MPRGBColor"
      "MPColor" := by
  have hlast : (colorClasses ["MPColorsController"]).IsLast (withoutNotifying "MPRGBColor")
      "MPColor" := ⟨by decide +kernel, [], [], by decide +kernel, by simp⟩
  refine (sameZone_iff _ _ ⟨List.Perm.refl _, rfl⟩ (by decide +kernel) (by decide +kernel) ?_).2
    ⟨hlast, hlast⟩
  exact ⟨["MPRGBColor"], ["MPManagedObject"], by decide +kernel, by decide +kernel,
    by decide +kernel, by decide +kernel⟩

end Feather.Controllers
