import Feather.Controllers.Equivalence
import Feather.Program.Calls

/-!
# The controller of a class

`controllerForManagedObjectClass:` and `controllerExistsForManagedObjectClass:` of
`MPDatabasePackageController.m` look for a property of the package named after the class or one
above it.  Both use one dictionary for the names found, in which only the first puts a null object
where there is none.
-/

namespace Feather.Controllers

open Program Sync List Option Hierarchy
open Feather.Embedding (hasPrefix)

namespace Hierarchy

variable {h : Hierarchy} {b c cls : String}

theorem exists_superclasses_eq (hmem : b ∈ h.superclasses c) :
    ∃ below, h.superclasses c = below ++ b :: h.superclasses b := by
  generalize hch : h.superclasses c = chain at hmem
  induction chain generalizing c with
  | nil => exact absurd hmem not_mem_nil
  | cons superclass rest ih =>
    have htail := h.superclasses_tail c superclass rest hch
    rcases mem_cons.1 hmem with rfl | hrest
    · exact ⟨[], by rw [htail, nil_append]⟩
    · obtain ⟨below, hbel⟩ := ih htail hrest
      exact ⟨superclass :: below, by rw [hbel, cons_append]⟩

theorem notMem_superclasses_self (c : String) : c ∉ h.superclasses c := by
  intro hmem
  obtain ⟨below, hbel⟩ := exists_superclasses_eq hmem
  have hlen := congrArg length hbel
  simp at hlen
  omega

theorem not_isBelow_root : ¬h.IsBelow "MPManagedObject" := notMem_superclasses_self _

end Hierarchy

namespace PackageController

variable (p : PackageController)

/-- `controllerExistsForManagedObjectClass:` -/
def controllerExistsForManagedObjectClass (dictionary : ControllerDictionary) (cls : String) :
    Option (Bool × ControllerDictionary) :=
  (p.findController dictionary cls).map fun (c, dictionary) => (c.isSome, dictionary)

/-! ### Calls and answers -/

/-- What a package controller is asked. -/
inductive LookupCall
  | controllerFor (cls : String)
  | controllerExists (cls : String)
  deriving DecidableEq

def LookupCall.cls : LookupCall → String
  | controllerFor cls => cls
  | controllerExists cls => cls

/-- What it answers. -/
inductive LookupAnswer
  | controller (c : Option Controller)
  | exists_ (found : Bool)
  deriving DecidableEq

/-- One call. -/
def call : LookupCall → ControllerDictionary → Option (LookupAnswer × ControllerDictionary)
  | .controllerFor cls, dictionary =>
    (p.controllerForManagedObjectClass dictionary cls).map fun (c, dictionary) =>
      (.controller c, dictionary)
  | .controllerExists cls, dictionary =>
    (p.controllerExistsForManagedObjectClass dictionary cls).map fun (found, dictionary) =>
      (.exists_ found, dictionary)

/-- The package has a property for the objects of the class. -/
def hasProperty (cls : String) : Bool := p.respondsToSelector (controllerPropertyName cls)

/-- The first class with a property among the class and those above it, below `MPManagedObject`. -/
def closest (cls : String) : Option String :=
  ((p.hierarchy.chain cls).filter fun c => decide (p.hierarchy.IsBelow c)).find? p.hasProperty

/-- The controller of a class, without any dictionary. -/
def uncached (cls : String) : Option Controller :=
  (p.closest cls).bind fun c => p.valueForKey (controllerPropertyName c)

/-- The answer without the dictionary. -/
def uncachedAnswer : LookupCall → LookupAnswer
  | .controllerFor cls => .controller (p.uncached cls)
  | .controllerExists cls => .exists_ (p.uncached cls).isSome

/-- The classes have the prefix, and the properties have controllers. -/
structure Asserted : Prop where
  named : ∀ cls, p.hierarchy.IsBelow cls → hasPrefix "MP" cls
  stored : ∀ cls, p.hasProperty cls → (p.valueForKey (controllerPropertyName cls)).isSome

variable {p} {cls : String} {dictionary : ControllerDictionary}

/-! ### The loop -/

theorem hasProperty_of_closest {c : String} (h : p.closest cls = some c) : p.hasProperty c :=
  find?_some h

theorem filter_isBelow_superclasses (h : Hierarchy) :
    (h.superclasses "MPManagedObject").filter (fun c => decide (h.IsBelow c)) = [] := by
  rw [filter_eq_nil_iff]
  intro c hc
  rw [decide_eq_true_eq]
  exact fun hbel => not_isBelow_root (superclasses_trans hbel hc)

theorem search_of_hasProperty (hp : p.Asserted) (hcls : p.hierarchy.IsBelow cls)
    (h : p.hasProperty cls) (rest : List String) :
    p.search (cls :: rest) = some (some (controllerPropertyName cls)) := by
  have hsto := hp.stored _ h
  rw [hasProperty] at h
  simp [search, if_pos (hp.named cls hcls), if_pos h, if_pos hsto]

theorem search_of_not_hasProperty (hp : p.Asserted) (hcls : p.hierarchy.IsBelow cls)
    (h : ¬p.hasProperty cls) (rest : List String) :
    p.search (cls :: rest) =
      if rest.head? = some "MPManagedObject" then some none else p.search rest := by
  rw [hasProperty] at h
  simp [search, if_pos (hp.named cls hcls), if_neg h]

theorem search_eq (hp : p.Asserted) (hcls : p.hierarchy.IsBelow cls) :
    p.search (p.hierarchy.chain cls) = some ((p.closest cls).map controllerPropertyName) := by
  rw [closest, chain]
  generalize hch : p.hierarchy.superclasses cls = chain
  induction chain generalizing cls with
  | nil =>
    rw [Hierarchy.IsBelow, hch] at hcls
    exact absurd hcls not_mem_nil
  | cons superclass rest ih =>
    rw [filter_cons_of_pos (by simpa using hcls)]
    by_cases hpr : p.hasProperty cls
    · rw [search_of_hasProperty hp hcls hpr, find?_cons_of_pos hpr, map_some]
    · rw [search_of_not_hasProperty hp hcls hpr, find?_cons_of_neg hpr]
      have htail := p.hierarchy.superclasses_tail cls superclass rest hch
      by_cases hroot : superclass = "MPManagedObject"
      · subst hroot
        rw [filter_cons_of_neg, ← htail, filter_isBelow_superclasses]
        · rfl
        · simpa using not_isBelow_root
      · have hsup : p.hierarchy.IsBelow superclass := by
          rw [Hierarchy.IsBelow, hch] at hcls
          rw [Hierarchy.IsBelow, htail]
          exact (mem_cons.1 hcls).resolve_left (Ne.symm hroot)
        rw [head?_cons, if_neg fun heq => hroot (some.inj heq)]
        exact ih hsup htail

/-! ### The dictionary -/

/-- Every entry of the dictionary is what the loop finds. -/
def Caches (p : PackageController) (dictionary : ControllerDictionary) : Prop :=
  ∀ cls entry, dictionary.lookup cls = some entry →
    entry = (p.closest cls).map controllerPropertyName

theorem caches_empty : p.Caches ∅ := by
  intro cls entry h
  cases h

theorem Caches.insert (h : p.Caches dictionary) (cls : String) :
    p.Caches (dictionary.insert cls ((p.closest cls).map controllerPropertyName)) := by
  intro cls' entry hlk
  by_cases heq : cls' = cls
  · subst heq
    rw [AList.lookup_insert] at hlk
    exact (some.inj hlk).symm
  · rw [AList.lookup_insert_ne heq] at hlk
    exact h cls' entry hlk

theorem not_metadata (hcls : p.hierarchy.IsBelow cls) :
    ¬(cls = "MPMetadata" ∨ "MPMetadata" ∈ p.hierarchy.superclasses cls) := by
  obtain ⟨hmet, hobj⟩ := p.metadata_apart
  rintro (rfl | hmem)
  · exact hobj hcls
  · rcases comparable hmem hcls with heq | habv | habv
    · exact absurd heq (by decide)
    · exact hmet habv
    · exact hobj habv

theorem uncached_eq (p : PackageController) (cls : String) :
    ((p.closest cls).map controllerPropertyName).bind p.valueForKey = p.uncached cls := by
  rw [bind_map]
  rfl

theorem uncached_eq_none (hp : p.Asserted) (h : p.uncached cls = none) : p.closest cls = none := by
  cases hclo : p.closest cls with
  | none => rfl
  | some c =>
    have hsome := hp.stored _ (hasProperty_of_closest hclo)
    rw [uncached, hclo, bind_some] at h
    rw [h] at hsome
    cases hsome

theorem exists_findController (hp : p.Asserted) (hcls : p.hierarchy.IsBelow cls)
    (hcas : p.Caches dictionary) :
    ∃ dictionary', p.findController dictionary cls = some (p.uncached cls, dictionary') ∧
      p.Caches dictionary' := by
  rw [findController, if_neg (not_metadata hcls), if_pos hcls]
  have hsea := search_eq hp hcls
  have hunc := uncached_eq p cls
  cases hlk : dictionary.lookup cls with
  | none =>
    rw [hsea]
    cases hfnd : (p.closest cls).map controllerPropertyName with
    | none =>
      rw [hfnd, bind_none] at hunc
      exact ⟨dictionary, by rw [map_some, ← hunc], hcas⟩
    | some key =>
      rw [hfnd, bind_some] at hunc
      exact ⟨dictionary.insert cls (some key), by rw [map_some, ← hunc],
        hfnd ▸ hcas.insert cls⟩
  | some entry =>
    have hety := hcas cls entry hlk
    rw [← hety] at hunc
    refine ⟨dictionary, ?_, hcas⟩
    cases entry with
    | none =>
      rw [bind_none] at hunc
      rw [← hunc]
    | some key =>
      rw [bind_some] at hunc
      rw [← hunc]

theorem exists_call (hp : p.Asserted) (i : LookupCall) (hcls : p.hierarchy.IsBelow i.cls)
    (hcas : p.Caches dictionary) :
    ∃ dictionary', p.call i dictionary = some (p.uncachedAnswer i, dictionary') ∧
      p.Caches dictionary' := by
  obtain ⟨dictionary', hfind, hcas'⟩ := exists_findController hp hcls hcas
  cases i with
  | controllerExists cls =>
    refine ⟨dictionary', ?_, hcas'⟩
    rw [LookupCall.cls] at hfind
    simp [call, controllerExistsForManagedObjectClass, hfind, uncachedAnswer]
  | controllerFor cls =>
    rw [LookupCall.cls] at hfind hcls
    have hroot : cls ≠ "MPManagedObject" := by
      rintro rfl
      exact not_isBelow_root hcls
    cases hunc : p.uncached cls with
    | some c =>
      refine ⟨dictionary', ?_, hcas'⟩
      simp [call, controllerForManagedObjectClass, hfind, uncachedAnswer, hunc]
    | none =>
      have hins := hcas'.insert cls
      rw [uncached_eq_none hp hunc] at hins
      refine ⟨dictionary'.insert cls none, ?_, hins⟩
      simp [call, controllerForManagedObjectClass, hfind, uncachedAnswer, hunc, hroot]

/-- There is no controller exactly if no class on the way up has a property. -/
theorem uncached_eq_none_iff (hp : p.Asserted) :
    p.uncached cls = none ↔
      ∀ c ∈ p.hierarchy.chain cls, p.hierarchy.IsBelow c → ¬p.hasProperty c := by
  have hclo : p.closest cls = none ↔
      ∀ c ∈ p.hierarchy.chain cls, p.hierarchy.IsBelow c → ¬p.hasProperty c := by
    simp [closest]
  rw [← hclo]
  refine ⟨uncached_eq_none hp, fun h => ?_⟩
  rw [uncached, h, bind_none]

/-- Whatever was looked up before, every call returns and answers as without the dictionary: with
the controller under the property of the closest class, or none exactly if there is no such class.
-/
theorem answers_uncached (p : PackageController) (hp : p.Asserted) (calls : List LookupCall)
    (hcalls : ∀ i ∈ calls, p.hierarchy.IsBelow i.cls) :
    (∃ dictionary, tryCalls p.call calls ∅ = some (calls.map p.uncachedAnswer, dictionary)) ∧
      ∀ i ∈ calls, p.uncached i.cls = none ↔
        ∀ c ∈ p.hierarchy.chain i.cls, p.hierarchy.IsBelow c → ¬p.hasProperty c := by
  refine ⟨?_, fun i _ => uncached_eq_none_iff hp⟩
  exact tryCalls_eq_map (fun i hi _ hcas => exists_call hp i (hcalls i hi) hcas) caches_empty

end PackageController

/-- The colors with a controller for all of them. -/
def colorsController : PackageController where
  hierarchy := colorHierarchy
  respondsToSelector key := key = "colorsController"
  valueForKey key :=
    if key = "colorsController" then some ⟨"MPColorsController", "colors", "MPColor"⟩ else none
  conformsToReferencableObject _ := false
  metadata_apart := colorPackage.metadata_apart

theorem answers_uncached_colors :
    ∃ dictionary, tryCalls colorsController.call [.controllerExists "MPRGBColor",
        .controllerFor "MPRGBColor", .controllerFor "MPColor"] ∅ =
      some ([.exists_ true, .controller (some ⟨"MPColorsController", "colors", "MPColor"⟩),
        .controller (some ⟨"MPColorsController", "colors", "MPColor"⟩)], dictionary) := by
  have hass : colorsController.Asserted := by
    constructor
    · intro cls hcls
      rcases isBelow_colorHierarchy hcls with rfl | rfl <;> decide
    · intro cls hcls
      have hkey : controllerPropertyName cls = "colorsController" := by
        simpa [PackageController.hasProperty, colorsController] using hcls
      rw [hkey]
      rfl
  exact (colorsController.answers_uncached hass [.controllerExists "MPRGBColor",
    .controllerFor "MPRGBColor", .controllerFor "MPColor"] (by decide)).1

end Feather.Controllers
