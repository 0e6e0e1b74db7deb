import Feather.Async.System
import Feather.Embedding.Values
import Feather.Sync.State

/-!
# Which controller manages an object

The classes that a controller manages are collected from the list of all classes
(`managedObjectSubclasses` of `MPManagedObjectsController.m`), while the controller of a class is
looked for upwards, by the names of the properties of the package
(`controllerForManagedObjectClass:` of `MPDatabasePackageController.m`).
-/

namespace Feather.Controllers

open Async Sync List Option
open Feather.Embedding (hasPrefix)

variable {classes : List String}

/-! ### Names -/

/-- `pluralizedString`.  Only the first expression ignores the case. -/
def pluralizedString (s : String) : String :=
  match s.toList.reverse with
  | 'y' :: rest => String.ofList (rest.reverse ++ ['i', 'e', 's'])
  | 'Y' :: _ => s
  | _ => s ++ "s"

/-- The expression `^MP` replaced by nothing. -/
def withoutMP (className : String) : String :=
  if hasPrefix "MP" className then String.ofList (className.toList.drop 2) else className

/-- `lowercasingFirst` -/
def lowercasingFirst : List Char → List Char
  | [] => []
  | c :: s => c.toLower :: s

/-- `uppercasingFirst` -/
def uppercasingFirst : List Char → List Char
  | [] => []
  | c :: s => c.toUpper :: s

/-- `camelCased`, for the names of classes and properties, which are ASCII: the components between
the characters that are neither letters nor digits, joined. -/
def camelCased (s : String) : String :=
  match s.toList.splitOnP fun c => !c.isAlphanum with
  | [] => ""
  | first :: rest => String.ofList (lowercasingFirst first ++ rest.flatMap uppercasingFirst)

/-- `+controllerPropertyNameForManagedObjectClass:` -/
def controllerPropertyName (cls : String) : String :=
  camelCased (pluralizedString (withoutMP cls)) ++ "Controller"

/-! ### Classes -/

/-- `removeObject:`, which removes all that are equal. -/
def removeObject (objects : List String) (object : String) : List String :=
  objects.filter fun c => c ≠ object

/-- The classes of the running program, by their names. -/
structure Hierarchy where
  classes : List String
  superclasses : String → List String
  superclasses_tail : ∀ cls superclass rest, superclasses cls = superclass :: rest →
    superclasses superclass = rest

namespace Hierarchy

variable (h : Hierarchy)

/-- A class with those above it. -/
def chain (cls : String) : List String := cls :: h.superclasses cls

/-- A subclass of `MPManagedObject`, other than that class. -/
def IsBelow (h : Hierarchy) (cls : String) : Prop := "MPManagedObject" ∈ h.superclasses cls

instance (h : Hierarchy) (cls : String) : Decidable (h.IsBelow cls) :=
  inferInstanceAs (Decidable (_ ∈ _))

/-- `+subclasses` of `NSObject+MPExtensions.m`: all classes with the receiver above them. -/
def subclasses (cls : String) : List String :=
  h.classes.filter fun c => !hasPrefix "NSKVONotifying" c && decide (cls ∈ h.superclasses c)

/-- The loop over the subclasses that adds the subclasses of each. -/
def collate (subclasses subclassSet : List String) : List String :=
  match subclasses with
  | [] => subclassSet
  | subcls :: rest => collate (removeObject rest subcls) (subclassSet ++ h.subclasses subcls)
termination_by subclasses.length
decreasing_by exact Nat.lt_succ_of_le (length_filter_le _ _)

/-- A class with its subclasses. -/
def managedObjectSubclasses (cls : String) : List String :=
  h.collate (h.subclasses cls) (cls :: h.subclasses cls)

variable {h} {a b c cls : String}

/-- What is above a superclass is the end of the chain. -/
theorem superclasses_suffix (hmem : b ∈ h.superclasses c) :
    h.superclasses b <:+ h.superclasses c := by
  generalize hch : h.superclasses c = chain at hmem
  induction chain generalizing c with
  | nil => exact absurd hmem not_mem_nil
  | cons superclass rest ih =>
    have htail := h.superclasses_tail c superclass rest hch
    rcases mem_cons.1 hmem with rfl | hrest
    · rw [htail]
      exact suffix_cons b rest
    · exact (ih htail hrest).trans (suffix_cons superclass rest)

theorem superclasses_trans (hab : a ∈ h.superclasses b) (hbc : b ∈ h.superclasses c) :
    a ∈ h.superclasses c :=
  (superclasses_suffix hbc).subset hab

/-- Of two classes in one chain, one is above the other. -/
theorem comparable (ha : a ∈ h.superclasses c) (hb : b ∈ h.superclasses c) :
    a = b ∨ a ∈ h.superclasses b ∨ b ∈ h.superclasses a := by
  generalize hch : h.superclasses c = chain at ha hb
  induction chain generalizing c with
  | nil => exact absurd ha not_mem_nil
  | cons superclass rest ih =>
    have htail := h.superclasses_tail c superclass rest hch
    rcases mem_cons.1 ha with rfl | ha
    · rcases mem_cons.1 hb with rfl | hb
      · exact .inl rfl
      · exact .inr (.inr (by rwa [htail]))
    · rcases mem_cons.1 hb with rfl | hb
      · exact .inr (.inl (by rwa [htail]))
      · exact ih htail ha hb

theorem mem_subclasses : c ∈ h.subclasses cls ↔
    c ∈ h.classes ∧ hasPrefix "NSKVONotifying" c = false ∧ cls ∈ h.superclasses c := by
  simp [subclasses]

theorem mem_collate {subclasses subclassSet : List String}
    (hclo : ∀ subcls ∈ subclasses, ∀ c ∈ h.subclasses subcls, c ∈ subclassSet) :
    c ∈ h.collate subclasses subclassSet ↔ c ∈ subclassSet := by
  fun_induction collate h subclasses subclassSet with
  | case1 subclassSet => rfl
  | case2 subclassSet subcls rest ih =>
    rw [ih]
    · rw [mem_append, or_iff_left_of_imp]
      exact hclo subcls mem_cons_self c
    · intro d hd e he
      exact mem_append_left _ (hclo d (mem_cons_of_mem _ (mem_filter.1 hd).1) e he)

theorem mem_managedObjectSubclasses :
    c ∈ h.managedObjectSubclasses cls ↔ c = cls ∨ c ∈ h.subclasses cls := by
  rw [managedObjectSubclasses, mem_collate, mem_cons]
  intro subcls hsub d hd
  obtain ⟨hcls, hkvo, habv⟩ := mem_subclasses.1 hd
  exact mem_cons_of_mem _ (mem_subclasses.2
    ⟨hcls, hkvo, superclasses_trans (mem_subclasses.1 hsub).2.2 habv⟩)

end Hierarchy

/-- A controller, its database and the class of its objects. -/
structure Controller where
  name : String
  db : String
  managedObjectClass : String
  deriving DecidableEq

/-- The names of the properties found, or `NSNull`, by the names of the classes. -/
abbrev ControllerDictionary := Dictionary String (Option String)

/-- A package controller: its properties and the objects under them. -/
structure PackageController where
  hierarchy : Hierarchy
  respondsToSelector : String → Bool
  valueForKey : String → Option Controller
  conformsToReferencableObject : String → Bool
  metadata_apart : "MPMetadata" ∉ hierarchy.superclasses "MPManagedObject" ∧
    "MPManagedObject" ∉ hierarchy.superclasses "MPMetadata"

namespace PackageController

variable (p : PackageController)

/-- The loop from a class upwards to `MPManagedObject`; `none` where an assertion fails, on the name
or on the controller. -/
def search : List String → Option (Option String)
  | [] => none
  | cls :: superclasses =>
    if hasPrefix "MP" cls then
      let mocProperty := controllerPropertyName cls
      if p.respondsToSelector mocProperty then
        if (p.valueForKey mocProperty).isSome then some (some mocProperty) else none
      else if superclasses.head? = some "MPManagedObject" then some none
      else search superclasses
    else none

/-- `_controllerForManagedObjectClass:` -/
def findController (dictionary : ControllerDictionary) (cls : String) :
    Option (Option Controller × ControllerDictionary) :=
  if cls = "MPMetadata" ∨ "MPMetadata" ∈ p.hierarchy.superclasses cls then some (none, dictionary)
  else if p.hierarchy.IsBelow cls then
    match dictionary.lookup cls with
    | some (some controllerPropertyKey) => some (p.valueForKey controllerPropertyKey, dictionary)
    | some none => some (none, dictionary)
    | none =>
      (p.search (p.hierarchy.chain cls)).map fun
        | some mocProperty => (p.valueForKey mocProperty, dictionary.insert cls (some mocProperty))
        | none => (none, dictionary)
  else none

/-- `controllerForManagedObjectClass:` -/
def controllerForManagedObjectClass (dictionary : ControllerDictionary) (cls : String) :
    Option (Option Controller × ControllerDictionary) :=
  (p.findController dictionary cls).bind fun
    | (some c, dictionary) => some (some c, dictionary)
    | (none, dictionary) =>
      if !p.conformsToReferencableObject cls ∧ cls = "MPManagedObject" then none
      else some (none, dictionary.insert cls none)

end PackageController

/-- The controllers of a package.  One that is the property of a class is registered and manages the
class. -/
structure Package extends PackageController where
  controllers : List Controller
  nodup : controllers.Nodup
  managed : ∀ c ∈ controllers, c.managedObjectClass ∈ hierarchy.subclasses "MPManagedObject"
  named : ∀ cls c, hierarchy.IsBelow cls → valueForKey (controllerPropertyName cls) = some c →
    c ∈ controllers ∧ c.managedObjectClass = cls

namespace Package

variable (p : Package)

/-- `managesDocumentWithDictionary:`, which reads the object type of the dictionary. -/
def managesDocument (c : Controller) : Option String → Bool
  | none => false
  | some objectType => decide (objectType ∈ p.hierarchy.managedObjectSubclasses c.managedObjectClass)

/-- A lookup as an event; one that raises ends the run. -/
def lookUp (cls : String) (dictionary : ControllerDictionary) : Option ControllerDictionary :=
  (p.controllerForManagedObjectClass dictionary cls).map Prod.snd

end Package

/-- A stored document, as far as the view of all objects reads it. -/
structure StoredDocument where
  identifier : String
  objectType : Option String
  deriving DecidableEq

/-- `allObjects`, the rows of the view in the database of the controller. -/
def Package.allObjects (p : Package) (documents : String → List StoredDocument) (c : Controller) :
    List (String × StoredDocument) :=
  ((documents c.db).filter fun document => p.managesDocument c document.objectType).map
    fun document => (c.db, document)

/-- An object type has at most one controller, which is found for it whatever was looked up before,
and no object is listed twice. -/
structure ManagesOnce (p : Package) : Prop where
  unique : ∀ objectType, ∀ a ∈ p.controllers, ∀ b ∈ p.controllers,
    p.managesDocument a objectType → p.managesDocument b objectType → a = b
  found : ∀ classes dictionary cls c dictionary', run p.lookUp classes ∅ = some dictionary →
    cls ∈ p.hierarchy.classes →
    p.controllerForManagedObjectClass dictionary cls = some (some c, dictionary') →
      ∀ a ∈ p.controllers, p.managesDocument a (some cls) ↔ a = c
  listed : ∀ documents : String → List StoredDocument, (∀ db, (documents db).Nodup) →
    (p.controllers.flatMap (p.allObjects documents)).Nodup

/-- No controller's class is that of another controller, or above it. -/
def Separate (p : Package) : Prop :=
  ∀ a ∈ p.controllers, ∀ b ∈ p.controllers, a ≠ b →
    a.managedObjectClass ≠ b.managedObjectClass ∧
      a.managedObjectClass ∉ p.hierarchy.superclasses b.managedObjectClass

variable {dictionary dictionary' : ControllerDictionary}

section

variable {p : Package} {a b c : Controller} {cls : String}

theorem managesDocument_iff : p.managesDocument c (some cls) ↔
    cls = c.managedObjectClass ∨ cls ∈ p.hierarchy.subclasses c.managedObjectClass := by
  rw [Package.managesDocument, decide_eq_true_eq, Hierarchy.mem_managedObjectSubclasses]

theorem mem_superclasses_of_managesDocument (h : p.managesDocument c (some cls)) :
    c.managedObjectClass = cls ∨ c.managedObjectClass ∈ p.hierarchy.superclasses cls := by
  rcases managesDocument_iff.1 h with heq | hmem
  · exact .inl heq.symm
  · exact .inr (Hierarchy.mem_subclasses.1 hmem).2.2

/-- Separate controllers on the way up from one class are the same. -/
theorem Separate.eq (h : Separate p) (ha : a ∈ p.controllers) (hb : b ∈ p.controllers)
    (hacls : a.managedObjectClass = cls ∨ a.managedObjectClass ∈ p.hierarchy.superclasses cls)
    (hbcls : b.managedObjectClass = cls ∨ b.managedObjectClass ∈ p.hierarchy.superclasses cls) :
    a = b := by
  by_contra hne
  obtain ⟨hdif, hab⟩ := h a ha b hb hne
  obtain ⟨-, hba⟩ := h b hb a ha (Ne.symm hne)
  rcases hacls with rfl | hacls
  · rcases hbcls with heq | hbcls
    · exact hdif heq.symm
    · exact hba hbcls
  · rcases hbcls with rfl | hbcls
    · exact hab hacls
    · rcases Hierarchy.comparable hacls hbcls with heq | hmem | hmem
      · exact hdif heq
      · exact hab hmem
      · exact hba hmem

/-! ### The lookup -/

theorem search_cons {key superclass : String} {rest : List String}
    (h : p.search (cls :: superclass :: rest) = some (some key)) :
    key = controllerPropertyName cls ∧ (p.valueForKey key).isSome ∨
      superclass ≠ "MPManagedObject" ∧ p.search (superclass :: rest) = some (some key) := by
  unfold PackageController.search at h
  generalize controllerPropertyName cls = mocProperty at h ⊢
  dsimp only at h
  split_ifs at h with hpre hres hsome hroot
  · obtain rfl := some.inj (some.inj h)
    exact .inl ⟨rfl, hsome⟩
  · cases h
  · exact .inr ⟨fun heq => hroot (congrArg some heq), h⟩

theorem search_eq_some {key : String} (hcls : p.hierarchy.IsBelow cls)
    (h : p.search (p.hierarchy.chain cls) = some (some key)) :
    ∃ found ∈ p.hierarchy.chain cls, p.hierarchy.IsBelow found ∧
      key = controllerPropertyName found ∧ (p.valueForKey key).isSome := by
  rw [Hierarchy.chain] at h ⊢
  generalize hch : p.hierarchy.superclasses cls = chain at h ⊢
  induction chain generalizing cls with
  | nil =>
    rw [Hierarchy.IsBelow, hch] at hcls
    exact absurd hcls not_mem_nil
  | cons superclass rest ih =>
    rcases search_cons h with ⟨hkey, hsome⟩ | ⟨hroot, hrest⟩
    · exact ⟨cls, mem_cons_self, hcls, hkey, hsome⟩
    · have htail := p.hierarchy.superclasses_tail cls superclass rest hch
      have hsup : p.hierarchy.IsBelow superclass := by
        rw [Hierarchy.IsBelow, hch] at hcls
        rw [Hierarchy.IsBelow, htail]
        exact (mem_cons.1 hcls).resolve_left (Ne.symm hroot)
      obtain ⟨found, hfnd, hkey⟩ := ih hsup htail hrest
      exact ⟨found, mem_cons_of_mem _ hfnd, hkey⟩

theorem hasPrefix_of_search {superclasses : List String} {result : Option String}
    (h : p.search (cls :: superclasses) = some result) : hasPrefix "MP" cls := by
  rw [PackageController.search] at h
  split_ifs at h with hpre
  all_goals exact hpre

/-- What was stored for a class is what the loop finds for it. -/
def Remembers (p : Package) (dictionary : ControllerDictionary) : Prop :=
  ∀ cls key, dictionary.lookup cls = some (some key) →
    p.search (p.hierarchy.chain cls) = some (some key)

/-- A lookup finds what the loop finds, or nothing. -/
theorem findController_cases {result : Option Controller} (hrmb : Remembers p dictionary)
    (h : p.findController dictionary cls = some (result, dictionary')) :
    (∃ key c, p.hierarchy.IsBelow cls ∧ p.search (p.hierarchy.chain cls) = some (some key) ∧
        p.valueForKey key = some c ∧ result = some c ∧
        (dictionary' = dictionary ∨ dictionary' = dictionary.insert cls (some key))) ∨
      result = none ∧ dictionary' = dictionary := by
  -- what the search finds is a property that the package has
  have hfin (key : String) (hcls : p.hierarchy.IsBelow cls)
      (hsea : p.search (p.hierarchy.chain cls) = some (some key)) :
      ∃ c, p.valueForKey key = some c := by
    obtain ⟨-, -, -, -, hsome⟩ := search_eq_some hcls hsea
    exact isSome_iff_exists.1 hsome
  rw [PackageController.findController] at h
  split_ifs at h with hmet hobj
  · cases h
    exact .inr ⟨rfl, rfl⟩
  · split at h
    · rename_i key hlookup
      have hsea := hrmb cls key hlookup
      obtain ⟨c, hc⟩ := hfin key hobj hsea
      cases h
      exact .inl ⟨key, c, hobj, hsea, hc, hc, .inl rfl⟩
    · cases h
      exact .inr ⟨rfl, rfl⟩
    · generalize hsea : p.search (p.hierarchy.chain cls) = searched at h
      rcases searched with _ | _ | key
      · cases h
      · cases h
        exact .inr ⟨rfl, rfl⟩
      · obtain ⟨c, hc⟩ := hfin key hobj hsea
        cases h
        exact .inl ⟨key, c, hobj, rfl, hc, hc, .inr rfl⟩

/-- Where nothing is found, that is remembered. -/
theorem controllerForManagedObjectClass_cases {result : Option Controller}
    (hrmb : Remembers p dictionary)
    (h : p.controllerForManagedObjectClass dictionary cls = some (result, dictionary')) :
    (∃ key c, p.hierarchy.IsBelow cls ∧ p.search (p.hierarchy.chain cls) = some (some key) ∧
        p.valueForKey key = some c ∧ result = some c ∧
        (dictionary' = dictionary ∨ dictionary' = dictionary.insert cls (some key))) ∨
      result = none ∧ dictionary' = dictionary.insert cls none := by
  obtain ⟨⟨result₁, dictionary₁⟩, hfind, hres⟩ := bind_eq_some_iff.1 h
  rcases findController_cases hrmb hfind with ⟨key, c, hcls, hsea, hc, rfl, hdic⟩ | ⟨rfl, rfl⟩
  · cases hres
    exact .inl ⟨key, c, hcls, hsea, hc, rfl, hdic⟩
  · dsimp only at hres
    split_ifs at hres
    cases hres
    exact .inr ⟨rfl, rfl⟩

theorem remembers_insert {value : Option String} (hrmb : Remembers p dictionary)
    (hval : ∀ key, value = some key →
      p.search (p.hierarchy.chain cls) = some (some key)) :
    Remembers p (dictionary.insert cls value) := by
  intro cls' key hlk
  by_cases heq : cls' = cls
  · subst heq
    rw [AList.lookup_insert] at hlk
    exact hval key (some.inj hlk)
  · rw [AList.lookup_insert_ne heq] at hlk
    exact hrmb cls' key hlk

theorem remembers_step (hrmb : Remembers p dictionary)
    (h : p.lookUp cls dictionary = some dictionary') : Remembers p dictionary' := by
  obtain ⟨⟨result, _⟩, hres, rfl⟩ := map_eq_some_iff.1 h
  rcases controllerForManagedObjectClass_cases hrmb hres with
    ⟨key, c, -, hsearch, -, -, rfl | rfl⟩ | ⟨-, rfl⟩
  · exact hrmb
  · exact remembers_insert hrmb fun key' heq => some.inj heq ▸ hsearch
  · exact remembers_insert hrmb fun key' heq => absurd heq.symm (some_ne_none key')

theorem remembers_run (h : run p.lookUp classes ∅ = some dictionary) : Remembers p dictionary := by
  refine run_invariant (fun cls s s' hs hstep => remembers_step hs hstep) ?_ h
  intro cls key hlk
  cases hlk

/-- The controller that is found is registered, and its class is on the way up. -/
theorem found_spec (hrun : run p.lookUp classes ∅ = some dictionary)
    (h : p.controllerForManagedObjectClass dictionary cls = some (some c, dictionary')) :
    c ∈ p.controllers ∧ hasPrefix "MP" cls ∧
      (c.managedObjectClass = cls ∨ c.managedObjectClass ∈ p.hierarchy.superclasses cls) := by
  rcases controllerForManagedObjectClass_cases (remembers_run hrun) h with
    ⟨key, c', hcls, hsearch, hc, heq, -⟩ | ⟨hnone, -⟩
  · obtain ⟨found, hfnd, hbel, rfl, -⟩ := search_eq_some hcls hsearch
    obtain rfl := some.inj heq
    obtain ⟨hmem, rfl⟩ := p.named found c hbel hc
    exact ⟨hmem, hasPrefix_of_search hsearch, mem_cons.1 hfnd⟩
  · cases hnone

theorem not_kvo_of_hasPrefix (h : hasPrefix "MP" cls) : hasPrefix "NSKVONotifying" cls = false := by
  simp only [hasPrefix] at h ⊢
  generalize cls.toList = name at h ⊢
  cases name with
  | nil => rfl
  | cons first rest =>
    rw [show "MP".toList = ['M', 'P'] from rfl, isPrefixOf_cons_cons, Bool.and_eq_true,
      beq_iff_eq] at h
    rw [← h.1]
    rfl

/-! ### Agreement -/

theorem Separate.managesOnce (h : Separate p) : ManagesOnce p where
  unique objectType a ha b hb hman hmanages' := by
    cases objectType with
    | none => cases hman
    | some cls =>
      exact h.eq ha hb (mem_superclasses_of_managesDocument hman)
        (mem_superclasses_of_managesDocument hmanages')
  found classes dictionary cls c dictionary' hrun hcls hfound a ha := by
    obtain ⟨hc, hpre, habv⟩ := found_spec hrun hfound
    constructor
    · intro hman
      exact h.eq ha hc (mem_superclasses_of_managesDocument hman) habv
    · rintro rfl
      refine managesDocument_iff.2 (habv.imp Eq.symm fun hmem => ?_)
      exact Hierarchy.mem_subclasses.2 ⟨hcls, not_kvo_of_hasPrefix hpre, hmem⟩
  listed documents hdocuments := by
    rw [nodup_flatMap]
    constructor
    · intro c _
      refine ((hdocuments c.db).filter _).map fun x y heq => ?_
      exact (Prod.mk.inj heq).2
    · refine p.nodup.imp_of_mem fun ha hb hne => ?_
      intro object hobj hobj'
      obtain ⟨document, hdoc, rfl⟩ := mem_map.1 hobj
      obtain ⟨document', hdoc', heq⟩ := mem_map.1 hobj'
      obtain ⟨-, rfl⟩ := Prod.mk.inj heq
      -- both controllers would manage the object type of the document
      have hman := (mem_filter.1 hdoc).2
      have hmanages' := (mem_filter.1 hdoc').2
      cases htype : document'.objectType with
      | none =>
        rw [htype] at hman
        cases hman
      | some cls =>
        rw [htype] at hman hmanages'
        exact hne (h.eq ha hb (mem_superclasses_of_managesDocument hman)
          (mem_superclasses_of_managesDocument hmanages'))

/-- Every object has one controller exactly if no class of one is another's or above it. -/
theorem managesOnce_iff (p : Package) : ManagesOnce p ↔ Separate p := by
  refine ⟨fun h a ha b hb hne => ?_, Separate.managesOnce⟩
  -- the class of the second controller is managed by both
  have hself : p.managesDocument b (some b.managedObjectClass) := managesDocument_iff.2 (.inl rfl)
  constructor
  · intro heq
    exact hne (h.unique _ a ha b hb (managesDocument_iff.2 (.inl heq.symm)) hself)
  · intro habv
    obtain ⟨hcls, hkvo, -⟩ := Hierarchy.mem_subclasses.1 (p.managed b hb)
    refine hne (h.unique _ a ha b hb (managesDocument_iff.2 (.inr ?_)) hself)
    exact Hierarchy.mem_subclasses.2 ⟨hcls, hkvo, habv⟩

end

def colorHierarchy : Hierarchy where
  classes := ["MPManagedObject", "MPColor", "MPRGBColor"]
  superclasses cls :=
    if cls = "MPRGBColor" then ["MPColor", "MPManagedObject"]
    else if cls = "MPColor" then ["MPManagedObject"]
    else []
  superclasses_tail := by
    intro cls superclass rest h
    split_ifs at h
    · cases h
      rfl
    · cases h
      rfl

theorem isBelow_colorHierarchy {cls : String} (h : colorHierarchy.IsBelow cls) :
    cls = "MPRGBColor" ∨ cls = "MPColor" := by
  by_contra hne
  rw [not_or] at hne
  have hmem : "MPManagedObject" ∈ colorHierarchy.superclasses cls := h
  simp [colorHierarchy, hne.1, hne.2] at hmem

/-- A package with a controller for the colors and one for the colors of a subclass. -/
def colorPackage : Package where
  hierarchy := colorHierarchy
  controllers := [⟨"MPColorsController", "colors", "MPColor"⟩,
    ⟨"MPRGBColorsController", "colors", "MPRGBColor"⟩]
  respondsToSelector key := key = "colorsController" ∨ key = "rGBColorsController"
  valueForKey key :=
    if key = "colorsController" then some ⟨"MPColorsController", "colors", "MPColor"⟩
    else if key = "rGBColorsController" then some ⟨"MPRGBColorsController", "colors", "MPRGBColor"⟩
    else none
  conformsToReferencableObject _ := false
  metadata_apart := by decide
  nodup := by decide
  managed := by decide
  named := by
    intro cls c hcls h
    rcases isBelow_colorHierarchy hcls with rfl | rfl
    · rw [show controllerPropertyName "MPRGBColor" = "rGBColorsController" by decide +kernel] at h
      cases h
      decide
    · rw [show controllerPropertyName "MPColor" = "colorsController" by decide +kernel] at h
      cases h
      decide

/-- The objects of the subclass are managed and listed by both controllers. -/
theorem not_managesOnce_colorPackage :
    colorPackage.managesDocument ⟨"MPColorsController", "colors", "MPColor"⟩ (some "MPRGBColor") ∧
      colorPackage.managesDocument ⟨"MPRGBColorsController", "colors", "MPRGBColor"⟩
        (some "MPRGBColor") ∧
      ¬ManagesOnce colorPackage := by
  have hcol : colorPackage.managesDocument ⟨"MPColorsController", "colors", "MPColor"⟩
      (some "MPRGBColor") := managesDocument_iff.2 (.inr (by decide))
  have hrgb : colorPackage.managesDocument ⟨"MPRGBColorsController", "colors", "MPRGBColor"⟩
      (some "MPRGBColor") := managesDocument_iff.2 (.inl rfl)
  refine ⟨hcol, hrgb, fun h => ?_⟩
  have heq := h.unique _ _ (by decide) _ (by decide) hcol hrgb
  exact absurd heq (by decide)

end Feather.Controllers
