import Feather.Async.System
import Feather.Sync.State

/-!
# Deleted objects and the cache of a controller

A controller keeps every object it has created or loaded in `_objectCache`, where
`objectWithIdentifier:` of `MPManagedObjectsController.m` looks first.  The hook `willDeleteObject:`
would take an object out of it, but nothing calls it: `deleteDocument:` of `MPManagedObject.m`
deletes the document and calls `didDeleteObject:`, which only posts notifications.
-/

namespace Feather.Controllers

open Async Sync Option

/-- A managed object; it has a document until that is deleted. -/
structure ManagedObject where
  identifier : String
  hasDocument : Bool
  deriving DecidableEq

/-- `live` identifies the documents that are saved and not deleted; an identity is a document with
the identifier of its contributor. -/
structure ObjectStore where
  objects : List ManagedObject
  objectCache : Dictionary String ℕ
  live : List String
  identities : List (String × String)
  me : Option ℕ

def emptyStore : ObjectStore := ⟨[], ∅, [], [], none⟩

/-- A controller: which identifiers name a class of its objects, whether these are the contributors,
and what the shared package finds. -/
structure ObjectsController where
  acceptsIdentifier : String → Bool
  managesContributors : Bool
  relaysFetching : Option (String → Bool)

/-- An object of the controller, or one of the shared package. -/
inductive Found where
  | own (n : ℕ)
  | shared
  deriving DecidableEq

/-- `initWithNewDocumentForController:properties:documentID:`, or loading a document. -/
def addObject (identifier : String) (s : ObjectStore) : ObjectStore :=
  { s with
    objects := s.objects ++ [⟨identifier, true⟩]
    objectCache := s.objectCache.insert identifier s.objects.length }

/-- `objectWithIdentifier:`; `none` where its assertion on the identifier fails. -/
def objectWithIdentifier (x : ObjectsController) (identifier : String) (s : ObjectStore) :
    Option (Option Found × ObjectStore) :=
  if x.acceptsIdentifier identifier then
    match s.objectCache.lookup identifier with
    | some n => some (some (.own n), s)
    | none =>
      if identifier ∈ s.live then
        some (some (.own s.objects.length), addObject identifier s)
      else
        match x.relaysFetching with
        | none => some (none, s)
        | some finds => some (if finds identifier then some .shared else none, s)
  else none

/-- `deleteDocument:`, with what it returns; `succeeds` is the outcome in the database. -/
def deleteDocument (n : ℕ) (succeeds : Bool) (s : ObjectStore) : Option (Bool × ObjectStore) :=
  s.objects[n]?.map fun object =>
    if object.hasDocument ∧ object.identifier ∈ s.live then
      if succeeds then
        (true, { s with
          objects := s.objects.set n { object with hasDocument := false }
          live := s.live.filter fun identifier => identifier ≠ object.identifier })
      else (false, s)
    -- without a current revision there is nothing to delete
    else (true, s)

/-- What happens to a controller and its objects. -/
inductive ObjectEvent where
  | create (identifier : String)
  | save (n : ℕ) (succeeds : Bool)
  | lookUp (identifier : String)
  | delete (n : ℕ) (succeeds : Bool)
  /-- The getter, which creates a contributor with the identifier if there is none. -/
  | getMe (identifier : String)
  | setMe (n : ℕ)
  | addIdentity (identity : String) (n : ℕ)
  deriving DecidableEq

/-- One event. -/
def ObjectEvent.step (x : ObjectsController) : ObjectEvent → ObjectStore → Option ObjectStore
  | .create identifier, s => some (addObject identifier s)
  | .save n succeeds, s =>
    s.objects[n]?.map fun object =>
      if object.hasDocument ∧ succeeds then { s with live := object.identifier :: s.live } else s
  | .lookUp identifier, s => (objectWithIdentifier x identifier s).map Prod.snd
  | .delete n succeeds, s => (deleteDocument n succeeds s).map Prod.snd
  | .getMe identifier, s =>
    match s.me with
    | some _ => some s
    | none => some { addObject identifier s with me := some s.objects.length }
  | .setMe n, s => if n < s.objects.length then some { s with me := some n } else none
  | .addIdentity identity n, s =>
    s.objects[n]?.map fun object =>
      { s with identities := (identity, object.identifier) :: s.identities }

/-- The event creates an object with this identifier. -/
def ObjectEvent.Creates (identifier : String) (e : ObjectEvent) : Prop :=
  e = .create identifier ∨ e = .getMe identifier

/-- A contributor that is deleted takes its identities with it, and is not `me`. -/
def ContributorForgotten (x : ObjectsController) (n : ℕ) (identifier : String) (s : ObjectStore) :
    Prop :=
  x.managesContributors → (∀ identity ∈ s.identities, identity.2 ≠ identifier) ∧ s.me ≠ some n

/-- There is no object with the identifier. -/
def NotFound (x : ObjectsController) (identifier : String) (s : ObjectStore) : Prop :=
  ∃ s', objectWithIdentifier x identifier s = some (none, s')

/-- After every deletion that returns `YES` the object is not found until it is created anew, and a
contributor is forgotten. -/
def DeletesCompletely (x : ObjectsController) (schedule : List ObjectEvent) : Prop :=
  ∀ past n succeeds s object s',
    past ++ [.delete n succeeds] <+: schedule → run (ObjectEvent.step x) past emptyStore = some s →
    s.objects[n]? = some object → deleteDocument n succeeds s = some (true, s') →
      ContributorForgotten x n object.identifier s' ∧
        ∀ later s'', past ++ [.delete n succeeds] ++ later <+: schedule →
          (∀ e ∈ later, ¬e.Creates object.identifier) →
          run (ObjectEvent.step x) later s' = some s'' → NotFound x object.identifier s''

section

variable {x : ObjectsController} {s s' : ObjectStore} {n : ℕ} {succeeds : Bool}
  {object : ManagedObject} {identifier : String}

/-! ### What stays in the cache -/

/-- The identifier of every object is in the cache. -/
def Registered (s : ObjectStore) : Prop :=
  ∀ object ∈ s.objects, (s.objectCache.lookup object.identifier).isSome

theorem registered_addObject (h : Registered s) (identifier : String) :
    Registered (addObject identifier s) := by
  intro object hobj
  by_cases heq : object.identifier = identifier
  · rw [heq, addObject, AList.lookup_insert]
    rfl
  · rw [addObject, AList.lookup_insert_ne heq]
    rcases List.mem_append.1 hobj with hold | hnew
    · exact h object hold
    · rw [List.mem_singleton.1 hnew] at heq
      exact absurd rfl heq

/-- All that a deletion can do. -/
theorem deleteDocument_cases {answer : Bool} (hobj : s.objects[n]? = some object)
    (h : deleteDocument n succeeds s = some (answer, s')) :
    (object.hasDocument ∧ object.identifier ∈ s.live ∧ succeeds = false ∧ answer = false ∧ s' = s) ∨
      answer = true ∧ s'.objectCache = s.objectCache ∧ s'.identities = s.identities ∧ s'.me = s.me ∧
        (s' = s ∨ s'.objects = s.objects.set n { object with hasDocument := false } ∧
          object.identifier ∉ s'.live) := by
  simp only [deleteDocument, hobj, map_some] at h
  split_ifs at h with hsav hsuc
  · cases h
    exact .inr ⟨rfl, rfl, rfl, rfl, .inr ⟨rfl, by simp⟩⟩
  · cases h
    exact .inl ⟨hsav.1, hsav.2, by simpa using hsuc, rfl, rfl⟩
  · cases h
    exact .inr ⟨rfl, rfl, rfl, rfl, .inl rfl⟩

theorem registered_deleteDocument {answer : Bool} (hs : Registered s)
    (h : deleteDocument n succeeds s = some (answer, s')) : Registered s' := by
  obtain ⟨object, hobj, -⟩ := map_eq_some_iff.1 h
  rcases deleteDocument_cases hobj h with ⟨-, -, -, -, rfl⟩ | ⟨-, hca, -, -, rfl | ⟨hset, -⟩⟩
  · exact hs
  · exact hs
  · intro object' hmem
    rw [hset] at hmem
    rw [hca]
    -- the deleted object keeps its identifier
    rcases List.mem_or_eq_of_mem_set hmem with hold | rfl
    · exact hs object' hold
    · exact hs object (List.mem_of_getElem? hobj)

theorem registered_objectWithIdentifier {result : Option Found} (hs : Registered s)
    (h : objectWithIdentifier x identifier s = some (result, s')) : Registered s' := by
  rw [objectWithIdentifier] at h
  by_cases hacc : x.acceptsIdentifier identifier
  · rw [if_pos hacc] at h
    split at h
    · cases h
      exact hs
    · by_cases hlive : identifier ∈ s.live
      · rw [if_pos hlive] at h
        cases h
        exact registered_addObject hs identifier
      · rw [if_neg hlive] at h
        split at h
        · cases h
          exact hs
        · cases h
          exact hs
  · rw [if_neg hacc] at h
    cases h

theorem registered_step (e : ObjectEvent) (s s' : ObjectStore) (hs : Registered s)
    (h : e.step x s = some s') : Registered s' := by
  cases e with
  | create identifier =>
    cases h
    exact registered_addObject hs identifier
  | save n succeeds =>
    obtain ⟨object, -, rfl⟩ := map_eq_some_iff.1 h
    split_ifs
    · exact hs
    · exact hs
  | lookUp identifier =>
    obtain ⟨⟨result, _⟩, hres, rfl⟩ := map_eq_some_iff.1 h
    exact registered_objectWithIdentifier hs hres
  | delete n succeeds =>
    obtain ⟨⟨answer, _⟩, hres, rfl⟩ := map_eq_some_iff.1 h
    exact registered_deleteDocument hs hres
  | getMe identifier =>
    rw [ObjectEvent.step] at h
    split at h
    · cases h
      exact hs
    · cases h
      exact registered_addObject hs identifier
  | setMe n =>
    rw [ObjectEvent.step] at h
    split_ifs at h
    cases h
    exact hs
  | addIdentity identity n =>
    obtain ⟨object, -, rfl⟩ := map_eq_some_iff.1 h
    exact hs

theorem registered_run {schedule : List ObjectEvent}
    (h : run (ObjectEvent.step x) schedule emptyStore = some s) : Registered s :=
  run_invariant registered_step (fun _ hobj => absurd hobj List.not_mem_nil) h

/-- What is in the cache is found, or the assertion fails. -/
theorem not_notFound_of_lookup (h : (s.objectCache.lookup identifier).isSome) :
    ¬NotFound x identifier s := by
  rintro ⟨s', hfnd⟩
  obtain ⟨n, hn⟩ := isSome_iff_exists.1 h
  simp only [objectWithIdentifier, hn] at hfnd
  split_ifs at hfnd
  cases hfnd

/-- Deletions are complete exactly in a run in which none succeeds: each is of a saved object, and
the database refuses it. -/
theorem deletesCompletely_iff (x : ObjectsController) (schedule : List ObjectEvent) :
    DeletesCompletely x schedule ↔
      ∀ past n succeeds s object, past ++ [.delete n succeeds] <+: schedule →
        run (ObjectEvent.step x) past emptyStore = some s → s.objects[n]? = some object →
          object.hasDocument ∧ object.identifier ∈ s.live ∧ succeeds = false := by
  constructor
  · intro h past n succeeds s object hpast hrun hobj
    have hdel : ∃ result, deleteDocument n succeeds s = some result :=
      ⟨_, by rw [deleteDocument, hobj, map_some]⟩
    obtain ⟨⟨answer, s'⟩, hdel⟩ := hdel
    rcases deleteDocument_cases hobj hdel with ⟨hdoc, hlive, hfls, -⟩ | ⟨rfl, hca, -⟩
    · exact ⟨hdoc, hlive, hfls⟩
    · -- the object is still in the cache
      obtain ⟨-, hnotF⟩ := h past n succeeds s object s' hpast hrun hobj hdel
      have hcad := registered_run hrun object (List.mem_of_getElem? hobj)
      rw [← hca] at hcad
      refine absurd (hnotF [] s' ?_ (fun e he => absurd he List.not_mem_nil) rfl)
        (not_notFound_of_lookup hcad)
      rwa [List.append_nil]
  · intro h past n succeeds s object s' hpast hrun hobj hdel
    obtain ⟨hdoc, hlive, rfl⟩ := h past n succeeds s object hpast hrun hobj
    rcases deleteDocument_cases hobj hdel with ⟨-, -, -, htrue, -⟩ | ⟨-, -, -, -, hleft⟩
    · cases htrue
    · simp only [deleteDocument, hobj, map_some, hdoc, hlive] at hdel
      cases hdel

end

/-- The controller of the contributors. -/
def contributorsController : ObjectsController := ⟨fun _ => true, true, none⟩

/-- A contributor that is `me` is deleted: it is found as before, and still `me`. -/
theorem not_deletesCompletely_contributor :
    run (ObjectEvent.step contributorsController)
        [.create "MPContributor:A", .save 0 true, .setMe 0, .addIdentity "MPContributorIdentity:1" 0,
          .delete 0 true] emptyStore =
      some ⟨[⟨"MPContributor:A", false⟩], (∅ : Dictionary String ℕ).insert "MPContributor:A" 0, [],
        [("MPContributorIdentity:1", "MPContributor:A")], some 0⟩ ∧
      ¬DeletesCompletely contributorsController
        [.create "MPContributor:A", .save 0 true, .setMe 0, .addIdentity "MPContributorIdentity:1" 0,
          .delete 0 true] := by
  refine ⟨by rfl, fun h => ?_⟩
  obtain ⟨hfor, -⟩ := h [.create "MPContributor:A", .save 0 true, .setMe 0,
    .addIdentity "MPContributorIdentity:1" 0] 0 true _ ⟨"MPContributor:A", true⟩ _
    (List.prefix_refl _) rfl rfl rfl
  exact (hfor rfl).2 rfl

end Feather.Controllers
