import Feather.Embedding.Values
import Mathlib.Data.List.TakeWhile

/-!
# The validation of saved revisions

Every revision that is saved or replicated goes through the block `validate-managed-object` of
`MPDatabase.m`, which leaves the result of `validateRevision:validationContext:` unread: a revision
is dropped only if the context was told to reject it.
-/

namespace Feather.Controllers

open Feather.Embedding (hasPrefix)

/-- `CBLRevision`, as far as the validation reads it; `contents` are the other properties. -/
structure NewRevision (π : Type) where
  documentID : Option String
  idProperty : Option String
  objectType : Option String
  isDeletion : Bool
  contents : π
  deriving DecidableEq

/-- `newRevision.document.documentID ?: newRevision.properties[@"_id"]` -/
def NewRevision.identifier {π : Type} (rev : NewRevision π) : Option String :=
  rev.documentID.or rev.idProperty

/-- The classes of the program: their names, what `+validateRevision:` of each answers (`none` where
there is no such method), and which are of managed objects or of metadata. -/
structure ClassTable (π : Type) where
  classExists : String → Bool
  validateRevision : String → NewRevision π → Option Bool
  isDocumentClass : String → Bool
  description : NewRevision π → String
  no_colon : ∀ cls, classExists cls → ':' ∉ cls.toList

/-- The user defaults that a build for debugging reads, with the number that it draws. -/
structure DebugDefaults where
  failAllSaves : Bool
  failSavesWithProbability : Option ℚ
  drawn : ℚ

/-- Why a default for debugging rejects a save. -/
def DebugDefaults.rejection (debug : DebugDefaults) : Option String :=
  if debug.failAllSaves then
    some "All saves set to fail. Please toggle off MPFaillAllSaves to successfully save"
  else
    match debug.failSavesWithProbability with
    | none => none
    | some p =>
      if debug.drawn < p then
        some "Failing saving because MPFailSavesWithProbability is set to a nonzero value"
      else none

/-- What `validateRevision:validationContext:` returns, and what the context is told. -/
structure Verdict where
  returned : Bool
  rejection : Option String
  deriving DecidableEq

/-- `hasPrefix:`, which a missing identifier answers with `NO`. -/
def identifierHasPrefix (start : String) (identifier : Option String) : Bool :=
  identifier.any (hasPrefix start)

section

variable {π : Type} (t : ClassTable π)

/-- `validateRevision:validationContext:`; `none` where a class cannot be asked. -/
def validateRevision (debug : Option DebugDefaults) (rev : NewRevision π) : Option Verdict :=
  match debug.bind DebugDefaults.rejection with
  | some message => some ⟨false, some message⟩
  | none =>
    if rev.isDeletion then some ⟨true, none⟩
    else
      let documentID := rev.identifier.getD "(null)"
      match rev.objectType with
      | some objectType =>
        if identifierHasPrefix objectType rev.identifier then
          if t.classExists objectType then
            (t.validateRevision objectType rev).map fun validates =>
              if validates then ⟨true, none⟩
              else ⟨false, some ("Attempting to save a managed object '" ++ documentID ++
                "' which does not validate as " ++ objectType ++ " -- this will fail.")⟩
          else
            some ⟨false, some ("Attempting to save a managed object '" ++ documentID ++
              "' with an unexpected object type '" ++ objectType ++ "' -- this will fail.")⟩
        else
          some ⟨false, some ("Attempting to save a managed object '" ++ documentID ++
            "' without object type as a prefix in _id -- this will fail: " ++ t.description rev)⟩
      | none =>
        -- the identifier is looked at, but nothing is rejected
        some ⟨identifierHasPrefix "MPMetadata" rev.identifier ||
          identifierHasPrefix "MPLocalMetadata" rev.identifier, none⟩

/-- The block `validate-managed-object`, with the message of a rejection; `none` where it raises. -/
def validationBlock (debug : Option DebugDefaults) (rev : NewRevision π) : Option (Option String) :=
  if rev.objectType = some "MPElement" then none
  else (validateRevision t debug rev).map Verdict.rejection

/-- `[documentID componentsSeparatedByString:@":"][0]` -/
def classNameOf (documentID : String) : String :=
  String.ofList (documentID.toList.takeWhile fun c => c ≠ ':')

/-- `managedObjectClassFromDocumentID:`; `none` where an assertion fails. -/
def managedObjectClassFromDocumentID (documentID : String) : Option String :=
  if 10 ≤ documentID.length ∧ t.classExists (classNameOf documentID) ∧
      t.isDocumentClass (classNameOf documentID) then
    some (classNameOf documentID)
  else none

end

/-! ### Saves and what they store -/

/-- A local save or a replicated revision. -/
structure Save (π : Type) where
  rev : NewRevision π
  debug : Option DebugDefaults

variable {π : Type}

/-- The block does not reject the save. -/
def Save.Accepted (t : ClassTable π) (save : Save π) : Prop :=
  validationBlock t save.debug save.rev = some none

instance (t : ClassTable π) (save : Save π) : Decidable (save.Accepted t) :=
  inferInstanceAs (Decidable (_ = _))

/-- The database keeps the last revision of each document that is not deleted. -/
def storeSave (t : ClassTable π) (stored : List (NewRevision π)) (save : Save π) :
    List (NewRevision π) :=
  if save.Accepted t then
    let others := stored.filter fun rev => rev.identifier ≠ save.rev.identifier
    if save.rev.isDeletion then others else save.rev :: others
  else stored

/-- What is stored after saves. -/
def storedAfter (t : ClassTable π) (saves : List (Save π)) : List (NewRevision π) :=
  saves.foldl (storeSave t) []

/-- An identifier of the metadata classes. -/
def IsMetadataIdentifier (documentID : String) : Prop :=
  hasPrefix "MPMetadata" documentID ∨ hasPrefix "MPLocalMetadata" documentID

/-- The revision is of the class that its identifier names, or is metadata. -/
def Conforms (t : ClassTable π) (rev : NewRevision π) : Prop :=
  ∃ documentID, rev.identifier = some documentID ∧
    ((∃ objectType, rev.objectType = some objectType ∧ classNameOf documentID = objectType ∧
        t.classExists objectType) ∨
      IsMetadataIdentifier documentID)

/-- What is accepted conforms, and its object type is the class of its identifier. -/
structure StoresConforming (t : ClassTable π) (saves : List (Save π)) : Prop where
  accepted : ∀ save ∈ saves, save.Accepted t → save.rev.isDeletion = false → Conforms t save.rev
  derived : ∀ past, past <+: saves → ∀ rev ∈ storedAfter t past, ∀ documentID cls,
    rev.identifier = some documentID →
    managedObjectClassFromDocumentID t documentID = some cls →
      rev.objectType = some cls ∨ IsMetadataIdentifier documentID

/-- A revision that is no deletion and meets with no default for debugging: without an object type
it has the identifier of metadata.  If the type starts the identifier, and is a class that finds the
revision valid, it is the identifier or stands before a colon in it, or the identifier is that of
metadata. -/
def Save.HasProperIdentifier (t : ClassTable π) (save : Save π) : Prop :=
  save.debug.bind DebugDefaults.rejection = none → save.rev.isDeletion = false →
    match save.rev.objectType with
    | none => ∃ documentID, save.rev.identifier = some documentID ∧ IsMetadataIdentifier documentID
    | some objectType => ∀ documentID, save.rev.identifier = some documentID →
      objectType ≠ "MPElement" → hasPrefix objectType documentID → t.classExists objectType →
      t.validateRevision objectType save.rev = some true →
        documentID = objectType ∨ hasPrefix (objectType ++ ":") documentID ∨
          IsMetadataIdentifier documentID

section

variable {t : ClassTable π} {save : Save π} {rev : NewRevision π} {saves : List (Save π)}

theorem hasPrefix_iff {start s : String} :
    hasPrefix start s ↔ ∃ rest, start.toList ++ rest = s.toList := by
  rw [hasPrefix, List.isPrefixOf_iff_prefix]
  rfl

/-- The part before the colon is the name, or the identifier is. -/
theorem classNameOf_eq_iff {documentID name : String} (hcol : ':' ∉ name.toList) :
    classNameOf documentID = name ↔ documentID = name ∨ hasPrefix (name ++ ":") documentID := by
  have hall : ∀ c ∈ name.toList, decide (c ≠ ':') = true := by
    intro c hc
    simp only [decide_eq_true_eq]
    rintro rfl
    exact hcol hc
  constructor
  · intro h
    have hname : documentID.toList.takeWhile (fun c => c ≠ ':') = name.toList := by
      rw [← h, classNameOf, String.toList_ofList]
    have hspl := List.takeWhile_append_dropWhile (p := fun c => decide (c ≠ ':'))
      (l := documentID.toList)
    rw [hname] at hspl
    cases hrest : documentID.toList.dropWhile (fun c => c ≠ ':') with
    | nil =>
      rw [hrest, List.append_nil] at hspl
      exact .inl (String.toList_inj.1 hspl.symm)
    | cons c rest =>
      -- what is left after the name starts with the colon
      have hc : c = ':' := by
        have hhead := List.head?_dropWhile_not (fun c => decide (c ≠ ':')) documentID.toList
        rw [hrest] at hhead
        simpa using hhead
      rw [hrest, hc] at hspl
      refine .inr (hasPrefix_iff.2 ⟨rest, ?_⟩)
      rw [String.toList_append, ← hspl, List.append_assoc]
      rfl
  · rintro (rfl | h)
    · rw [classNameOf, List.takeWhile_eq_self_iff.2 hall, String.ofList_toList]
    · obtain ⟨rest, hrest⟩ := hasPrefix_iff.1 h
      rw [String.toList_append, List.append_assoc] at hrest
      rw [classNameOf, ← hrest, List.takeWhile_append_of_pos hall]
      rw [show ":".toList ++ rest = ':' :: rest from rfl, List.takeWhile_cons_of_neg (by decide),
        List.append_nil, String.ofList_toList]

/-- What is accepted: anything without object type, or a class that starts the identifier and finds
the revision valid. -/
theorem Save.accepted_iff (hdel : save.rev.isDeletion = false) :
    save.Accepted t ↔ save.debug.bind DebugDefaults.rejection = none ∧
      ∀ objectType, save.rev.objectType = some objectType → objectType ≠ "MPElement" ∧
        identifierHasPrefix objectType save.rev.identifier ∧ t.classExists objectType ∧
          t.validateRevision objectType save.rev = some true := by
  rw [Save.Accepted, validationBlock, validateRevision]
  cases hdebug : save.debug.bind DebugDefaults.rejection with
  | some message => simp
  | none =>
    cases hobj : save.rev.objectType with
    | none => simp [hdel]
    | some objectType =>
      simp only [hdel, Bool.false_eq_true, if_false, Option.some.injEq, true_and, forall_eq']
      by_cases hele : objectType = "MPElement"
      · simp [hele]
      · rw [if_neg hele]
        split_ifs with hpre hcls
        · cases hval : t.validateRevision objectType save.rev with
          | none => simp
          | some validates => cases validates <;> simp [hele, hpre, hcls]
        · simp [hcls]
        · simp [hpre]

theorem identifierHasPrefix_iff {start : String} {identifier : Option String} :
    identifierHasPrefix start identifier ↔
      ∃ documentID, identifier = some documentID ∧ hasPrefix start documentID := by
  cases identifier <;> simp [identifierHasPrefix]

theorem Save.hasProperIdentifier_iff : save.HasProperIdentifier t ↔
    (save.Accepted t → save.rev.isDeletion = false → Conforms t save.rev) := by
  rw [HasProperIdentifier]
  constructor
  · intro h hacc hdel
    obtain ⟨hdebug, htype⟩ := (accepted_iff hdel).1 hacc
    have h := h hdebug hdel
    cases hobj : save.rev.objectType with
    | none =>
      rw [hobj] at h
      obtain ⟨documentID, hid, hmeta⟩ := h
      exact ⟨documentID, hid, .inr hmeta⟩
    | some objectType =>
      rw [hobj] at h
      obtain ⟨hele, hstart, hcls, hval⟩ := htype objectType hobj
      obtain ⟨documentID, hid, hpre⟩ := identifierHasPrefix_iff.1 hstart
      refine ⟨documentID, hid, ?_⟩
      have hcase := h documentID hid hele hpre hcls hval
      rw [← or_assoc, ← classNameOf_eq_iff (t.no_colon objectType hcls)] at hcase
      exact hcase.imp_left fun hname => ⟨objectType, hobj, hname, hcls⟩
  · intro h hdebug hdel
    cases hobj : save.rev.objectType with
    | none =>
      obtain ⟨documentID, hid, ⟨_, hsome, -⟩ | hmeta⟩ :=
        h ((accepted_iff hdel).2 ⟨hdebug, by simp [hobj]⟩) hdel
      · rw [hobj] at hsome
        cases hsome
      · exact ⟨documentID, hid, hmeta⟩
    | some objectType =>
      intro documentID hid hele hpre hcls hval
      have hacc : save.Accepted t := by
        refine (accepted_iff hdel).2 ⟨hdebug, fun ty hty => ?_⟩
        rw [hobj] at hty
        cases hty
        exact ⟨hele, identifierHasPrefix_iff.2 ⟨documentID, hid, hpre⟩, hcls, hval⟩
      obtain ⟨documentID', hid', hcase⟩ := h hacc hdel
      rw [hid] at hid'
      cases hid'
      rw [← or_assoc, ← classNameOf_eq_iff (t.no_colon objectType hcls)]
      refine hcase.imp_left ?_
      rintro ⟨_, hsome, hname, -⟩
      rw [hobj] at hsome
      cases hsome
      exact hname

theorem exists_save_of_mem (h : rev ∈ storedAfter t saves) :
    ∃ save ∈ saves, save.Accepted t ∧ save.rev = rev ∧ rev.isDeletion = false := by
  induction saves using List.reverseRecOn with
  | nil => exact absurd h List.not_mem_nil
  | append_singleton past save ih =>
    rw [storedAfter, List.foldl_concat, storeSave] at h
    -- one that was there before is from an earlier save
    have hear (hmem : rev ∈ storedAfter t past) : ∃ save' ∈ past ++ [save], save'.Accepted t ∧
        save'.rev = rev ∧ rev.isDeletion = false := by
      obtain ⟨save', hsave', hrest⟩ := ih hmem
      exact ⟨save', List.mem_append_left _ hsave', hrest⟩
    split_ifs at h with hacc hdel
    · exact hear (List.mem_filter.1 h).1
    · rcases List.mem_cons.1 h with rfl | hmem
      · exact ⟨save, by simp, hacc, rfl, by simpa using hdel⟩
      · exact hear (List.mem_filter.1 hmem).1
    · exact hear h

theorem managedObjectClassFromDocumentID_eq_some {documentID cls : String}
    (h : managedObjectClassFromDocumentID t documentID = some cls) : classNameOf documentID = cls := by
  rw [managedObjectClassFromDocumentID] at h
  split_ifs at h
  exact Option.some.inj h

/-- Only conforming documents are stored exactly if each save has a proper identifier. -/
theorem storesConforming_iff (t : ClassTable π) (saves : List (Save π)) :
    StoresConforming t saves ↔ ∀ save ∈ saves, save.HasProperIdentifier t := by
  simp only [Save.hasProperIdentifier_iff]
  refine ⟨fun h => h.accepted, fun h => ⟨h, fun past hpast rev hrev documentID cls hid hcls => ?_⟩⟩
  obtain ⟨save, hsave, hacc, rfl, hdel⟩ := exists_save_of_mem hrev
  obtain ⟨documentID', hid', hcase⟩ := h save (hpast.subset hsave) hacc hdel
  rw [hid] at hid'
  cases hid'
  refine hcase.imp_left ?_
  rintro ⟨objectType, hobj, hname, -⟩
  rw [hobj, ← hname, managedObjectClassFromDocumentID_eq_some hcls]

end

/-- The contributors and their identities. -/
def contributorClasses : ClassTable Unit where
  classExists cls := cls = "MPContributor" ∨ cls = "MPContributorIdentity"
  validateRevision _ _ := some true
  isDocumentClass _ := true
  description _ := ""
  no_colon := by
    intro cls h
    rcases of_decide_eq_true h with rfl | rfl <;> decide

/-- A contributor with the identifier of an identity is accepted, and a document without type. -/
theorem not_storesConforming_contributor :
    (⟨⟨some "MPContributorIdentity:1", none, some "MPContributor", false, ()⟩, none⟩ : Save Unit).Accepted
        contributorClasses ∧
      managedObjectClassFromDocumentID contributorClasses "MPContributorIdentity:1" =
        some "MPContributorIdentity" ∧
      (⟨⟨some "1", none, none, false, ()⟩, none⟩ : Save Unit).Accepted contributorClasses ∧
      ¬StoresConforming contributorClasses
        [⟨⟨some "MPContributorIdentity:1", none, some "MPContributor", false, ()⟩, none⟩] := by
  refine ⟨by decide, by decide, by decide, fun h => ?_⟩
  have hder := h.derived _ (List.prefix_refl _)
    ⟨some "MPContributorIdentity:1", none, some "MPContributor", false, ()⟩ (by decide)
    "MPContributorIdentity:1" "MPContributorIdentity" rfl (by decide)
  rcases hder with hder | hder
  · exact absurd hder (by decide)
  · exact absurd hder (by rw [IsMetadataIdentifier]; decide)

end Feather.Controllers
