import Mathlib.Tactic

/-!
# Opening the database of a document

`packageController` of `MPDatabasePackageBackedDocument.m` copies the document to a temporary path
and opens its database there when first asked; `writeToURL:ofType:error:` saves from there over the
original.  What goes wrong is kept in `packageAccessError`, and a document with an error is not
written.  Two ways to fail leave no error, and one more takes an earlier error away.
-/

namespace Feather.Controllers.DocumentAccess

open Option

/-- The errors of `MPDocument`, and others. -/
inductive DocumentError
  | foreign (description : String)
  | workingPathMissing
  | packageAccessFailed
  deriving DecidableEq

/-- The texts of the errors. -/
def DocumentError.localizedDescription : DocumentError → String
  | .foreign description => description
  | .workingPathMissing =>
    "Saving document failed because it has been opened in an inconsistent state."
  | .packageAccessFailed =>
    "Saving document failed because its internal database could not be accessed."

/-- The outcome of a step.  One that fails may leave an error or not. -/
inductive StepOutcome
  | ok
  | failed (error : Option DocumentError)
  deriving DecidableEq

/-- `MPDocument` -/
structure Document where
  hasPackageController : Bool
  packageAccessError : Option DocumentError
  temporaryManuscriptPath : Option String
  temporaryManuscriptMetadataDirectoryPath : Option String
  bundleRequiresInitialization : Bool
  bundleInitialized : Bool
  resourcesCleaned : Bool
  packageAccessDenied : Bool
  originalBundleFileURL : Option String
  requiresCopying : Bool
  deriving DecidableEq

/-- What the steps of one access are answered, in the order in which they ask.
`initializationError` is what a successful initialization leaves in its error. -/
structure Answers where
  temporaryPath : String
  createTree : StepOutcome
  fileExists : Bool
  isDirectory : Bool
  createContaining : StepOutcome
  existsBeforeCopy : Bool
  copyOriginal : StepOutcome
  existsForMetadata : Bool
  metadataExists : Bool
  createMetadata : StepOutcome
  existsForPermissions : Bool
  directoryFound : Bool
  readWritePermission : StepOutcome
  executePermission : StepOutcome
  opening : StepOutcome
  initializing : StepOutcome
  initializationError : Option DocumentError

/-- An assertion fails, `nil` is returned, or the controller is, open already or opened now. -/
inductive Outcome
  | raised
  | returnedNil
  | wasOpen
  | opened (initialized : Bool)
  deriving DecidableEq

/-- The access fails: it returns `nil`, or the controller could not be initialized. -/
def Outcome.Fails (outcome : Outcome) : Prop :=
  outcome = .returnedNil ∨ outcome = .opened false

instance : DecidablePred Outcome.Fails := fun _ => inferInstanceAs (Decidable (_ ∨ _))

section

variable (a : Answers)

/-- `nil` is returned, with an error. -/
def accessFailed (error : Option DocumentError) (d : Document) : Outcome × Document :=
  (.returnedNil, { d with packageAccessError := error })

/-- The steps whose failure ends the access with their error. -/
def attempt (outcome : StepOutcome) (d : Document) (next : Outcome × Document) :
    Outcome × Document :=
  match outcome with
  | .failed error => accessFailed error d
  | .ok => next

/-- `initializeStateCreatingDirectoryTree:error:`; `none` where its assertion fails. -/
def initializeState (d : Document) : Option (StepOutcome × Document) :=
  if d.packageAccessDenied then none
  else if d.bundleInitialized then some (.ok, d)
  else
    let d := { d with
      temporaryManuscriptPath := some (d.temporaryManuscriptPath.getD a.temporaryPath) }
    match a.createTree with
    | .failed error => some (.failed error, d)
    | .ok => some (.ok, { d with bundleRequiresInitialization := false, bundleInitialized := true })

/-- The path that `initializeManuscriptMetadataDirectoryCreatingDirectory:error:` sets first. -/
def setMetadataDirectoryPath (d : Document) : Document :=
  { d with
    temporaryManuscriptMetadataDirectoryPath := d.temporaryManuscriptMetadataDirectoryPath.or
      (d.temporaryManuscriptPath.map fun path => path ++ "/metadata") }

/-- The error is set if the initialization succeeds, to what it left there. -/
def initializePackageController (d : Document) : Outcome × Document :=
  match a.initializing with
  | .failed _ => (.opened false, d)
  | .ok => (.opened true, { d with packageAccessError := a.initializationError })

def openPackageController (d : Document) : Outcome × Document :=
  attempt a.opening d <| initializePackageController a
    { d with hasPackageController := true, packageAccessError := none }

def ensureExecutePermission (d : Document) : Outcome × Document :=
  if a.directoryFound then
    match a.executePermission with
    | .failed _ => (.returnedNil, d)
    | .ok => openPackageController a d
  else openPackageController a d

def ensurePermissions (d : Document) : Outcome × Document :=
  if a.existsForPermissions then
    attempt a.readWritePermission d (ensureExecutePermission a d)
  else openPackageController a d

def makeMetadataDirectory (requiredInitialization : Bool) (d : Document) : Outcome × Document :=
  if requiredInitialization ∧ a.existsForMetadata ∧ ¬a.metadataExists then
    attempt a.createMetadata (setMetadataDirectoryPath d)
      (ensurePermissions a (setMetadataDirectoryPath d))
  else ensurePermissions a (setMetadataDirectoryPath d)

def makeTree (d : Document) : Outcome × Document :=
  if d.bundleRequiresInitialization then
    match initializeState a d with
    | none => (.raised, d)
    | some (.failed error, d) => accessFailed error d
    | some (.ok, d) => makeMetadataDirectory a true d
  else makeMetadataDirectory a false d

def copyOriginal (d : Document) : Outcome × Document :=
  if d.originalBundleFileURL.isSome ∧ d.requiresCopying ∧ ¬a.existsBeforeCopy then
    attempt a.copyOriginal d (makeTree a (setMetadataDirectoryPath d))
  else makeTree a d

def makeContainingDirectory (d : Document) : Outcome × Document :=
  if a.fileExists then
    if a.isDirectory then copyOriginal a d else (.raised, d)
  else attempt a.createContaining d (copyOriginal a d)

/-- The temporary path is asserted to be set, unless the resources are cleaned up. -/
def checkResources (d : Document) : Outcome × Document :=
  if d.resourcesCleaned then (.returnedNil, d)
  else if d.temporaryManuscriptPath.isNone then (.raised, d)
  else makeContainingDirectory a d

/-- `-packageController` -/
def packageController (d : Document) : Outcome × Document :=
  if d.hasPackageController then (.wasOpen, d)
  else if d.bundleRequiresInitialization ∧ d.temporaryManuscriptPath.isNone then
    match initializeState a d with
    | none => (.raised, d)
    | some (.failed error, d) => accessFailed error d
    | some (.ok, d) => checkResources a d
  else checkResources a d

/-! ### Writing -/

/-- What writing a document returns. -/
inductive WriteResult
  | raised
  | no (error : Option DocumentError)
  | yes
  deriving DecidableEq

/-- `saveToURL:error:` of the controller, which writes the document if it succeeds. -/
def saveToURL (saving : StepOutcome) : WriteResult :=
  match saving with
  | .failed error => .no error
  | .ok => .yes

/-- A write has the directory tree made. -/
def requiringInitialization (d : Document) : Document :=
  { d with bundleRequiresInitialization := true }

/-- The access of a write: no error, a path, and no controller yet. -/
def writeAccess (d : Document) : Option (Outcome × Document) :=
  if d.packageAccessError.isNone ∧ d.temporaryManuscriptPath.isSome ∧ ¬d.hasPackageController then
    some (packageController a (requiringInitialization d))
  else none

/-- What a write does after its access.  That the files are there then is asserted, and so is an
error where there is no controller. -/
def finishWrite (filesThere : Bool) (saving : StepOutcome) : Outcome × Document →
    WriteResult × Document
  | (.raised, d) => (.raised, d)
  | (.returnedNil, d) =>
    if d.packageAccessError.isSome then (.no (some .packageAccessFailed), d) else (.raised, d)
  | (_, d) => if filesThere then (saveToURL saving, d) else (.raised, d)

/-- `writeToURL:ofType:error:` -/
def writeToURL (filesThere : Bool) (saving : StepOutcome) (d : Document) : WriteResult × Document :=
  match d.packageAccessError with
  | some error => (.no (some error), d)
  | none =>
    if d.temporaryManuscriptPath.isNone then (.no (some .workingPathMissing), d)
    else if d.hasPackageController then (saveToURL saving, d)
    else
      finishWrite filesThere saving (packageController a (requiringInitialization d))

end

/-! ### The first step that fails -/

/-- Where an access to the package may end. -/
inductive Stage
  | assertion
  | directoryTree
  | resourcesCleaned
  | containingDirectory
  | copying
  | metadataDirectory
  | readWritePermission
  | executePermission
  | opening
  | initialization
  deriving DecidableEq

/-- A failure at the step ends the access with the error of the step. -/
def Stage.setsError : Stage → Bool
  | assertion | resourcesCleaned | executePermission | initialization => false
  | _ => true

/-- The failure of a step that is made, with the error that it leaves. -/
def StepOutcome.failure (stage : Stage) : StepOutcome → Option (Stage × Option DocumentError)
  | .ok => none
  | .failed error => some (stage, error)

section

variable (a : Answers) (d : Document)

/-- The directory tree is made before anything else. -/
def startsWithTree : Bool :=
  d.bundleRequiresInitialization && d.temporaryManuscriptPath.isNone

/-- What can fail when the state is initialized. -/
def treeFailure : Option (Stage × Option DocumentError) :=
  if d.packageAccessDenied then some (.assertion, none)
  else if d.bundleInitialized then none
  else a.createTree.failure .directoryTree

/-- The temporary path is there after the first step. -/
def hasPath : Bool :=
  d.temporaryManuscriptPath.isSome || d.bundleRequiresInitialization && !d.bundleInitialized

/-- What can fail from the permissions on until the database is open. -/
def openingFailure : Option (Stage × Option DocumentError) :=
  (if a.existsForPermissions then a.readWritePermission.failure .readWritePermission
    else none).or <|
  (if a.existsForPermissions ∧ a.directoryFound then a.executePermission.failure .executePermission
    else none).or <|
  (a.opening.failure .opening).or (a.initializing.failure .initialization)

/-- What can fail once the temporary path is set. -/
def copyingFailure (requiresInitialization : Bool) : Option (Stage × Option DocumentError) :=
  (if a.fileExists then if a.isDirectory then none else some (.assertion, none)
    else a.createContaining.failure .containingDirectory).or <|
  (if d.originalBundleFileURL.isSome ∧ d.requiresCopying ∧ ¬a.existsBeforeCopy then
    a.copyOriginal.failure .copying else none).or <|
  (if requiresInitialization then treeFailure a d else none).or <|
  (if requiresInitialization ∧ a.existsForMetadata ∧ ¬a.metadataExists then
    a.createMetadata.failure .metadataDirectory else none).or <|
  openingFailure a

/-- The first step of an access that fails; the controller is not open. -/
def firstFailure : Option (Stage × Option DocumentError) :=
  (if startsWithTree d then treeFailure a d else none).or <|
  (if d.resourcesCleaned then some (.resourcesCleaned, none)
    else if hasPath d then none else some (.assertion, none)).or <|
  copyingFailure a d (d.bundleRequiresInitialization && !startsWithTree d)

end

/-- What is left of an access of a document that had the error `before`. -/
def Ends (before : Option DocumentError) (failure : Option (Stage × Option DocumentError))
    (result : Outcome × Document) : Prop :=
  match failure with
  | none => result.1 = .opened true
  | some (.assertion, _) => result.1 = .raised
  | some (.initialization, _) => result.1 = .opened false ∧ result.2.packageAccessError = none
  | some (.resourcesCleaned, _) | some (.executePermission, _) =>
    result.1 = .returnedNil ∧ result.2.packageAccessError = before
  | some (_, error) => result.1 = .returnedNil ∧ result.2.packageAccessError = error

section

variable {a : Answers} {d : Document} {before : Option DocumentError}
  {failure rest : Option (Stage × Option DocumentError)} {result next : Outcome × Document}

theorem Ends.attempt {outcome : StepOutcome} {stage : Stage} (hsta : stage.setsError = true)
    (hnext : Ends before rest next) :
    Ends before ((outcome.failure stage).or rest) (attempt outcome d next) := by
  cases outcome with
  | failed error => cases stage <;> first | exact ⟨rfl, rfl⟩ | cases hsta
  | ok => exact hnext

theorem Ends.ite {p : Prop} [Decidable p] (hmade : p → Ends before (failure.or rest) result)
    (hnot : ¬p → Ends before rest next) :
    Ends before ((if p then failure else none).or rest) (if p then result else next) := by
  by_cases hp : p
  · rw [if_pos hp, if_pos hp]
    exact hmade hp
  · rw [if_neg hp, if_neg hp]
    exact hnot hp

theorem ends_openPackageController :
    Ends before ((a.opening.failure .opening).or (a.initializing.failure .initialization))
      (openPackageController a d) := by
  refine Ends.attempt rfl ?_
  rw [initializePackageController]
  cases a.initializing with
  | failed error => exact ⟨rfl, rfl⟩
  | ok => rfl

theorem ends_ensurePermissions :
    Ends d.packageAccessError (openingFailure a) (ensurePermissions a d) := by
  have hopen : Ends d.packageAccessError _ (openPackageController a d) := ends_openPackageController
  refine Ends.ite (fun hex => Ends.attempt rfl ?_) fun hnot => ?_
  · rw [hex]
    simp only [true_and]
    refine Ends.ite (fun _ => ?_) fun _ => hopen
    cases a.executePermission with
    | failed error => exact ⟨rfl, rfl⟩
    | ok => exact hopen
  · simpa [hnot] using hopen

theorem ends_makeMetadataDirectory (required : Bool) :
    Ends d.packageAccessError
      ((if required ∧ a.existsForMetadata ∧ ¬a.metadataExists then
        a.createMetadata.failure .metadataDirectory else none).or (openingFailure a))
      (makeMetadataDirectory a required d) := by
  have hnext := ends_ensurePermissions (a := a) (d := setMetadataDirectoryPath d)
  exact Ends.ite (fun _ => Ends.attempt rfl hnext) fun _ => hnext

theorem Ends.initializeState {next : Document → Outcome × Document}
    (hbef : d.bundleInitialized = true → Ends d.packageAccessError rest (next d))
    (hnow : d.bundleInitialized = false → Ends d.packageAccessError rest (next { d with
      temporaryManuscriptPath := some (d.temporaryManuscriptPath.getD a.temporaryPath)
      bundleRequiresInitialization := false
      bundleInitialized := true })) :
    Ends d.packageAccessError ((treeFailure a d).or rest)
      (match initializeState a d with
      | none => (.raised, d)
      | some (.failed error, d) => accessFailed error d
      | some (.ok, d) => next d) := by
  rw [treeFailure, DocumentAccess.initializeState]
  split_ifs with hden hini
  · rfl
  · exact hbef hini
  · cases a.createTree with
    | failed error => exact ⟨rfl, rfl⟩
    | ok => exact hnow (Bool.eq_false_iff.2 hini)

theorem ends_makeTree :
    Ends d.packageAccessError
      ((if d.bundleRequiresInitialization then treeFailure a d else none).or <|
        (if d.bundleRequiresInitialization ∧ a.existsForMetadata ∧ ¬a.metadataExists then
          a.createMetadata.failure .metadataDirectory else none).or (openingFailure a))
      (makeTree a d) := by
  refine Ends.ite (fun hreq => ?_) fun hnot => ?_
  · rw [hreq]
    exact Ends.initializeState (fun _ => ends_makeMetadataDirectory true)
      fun _ => ends_makeMetadataDirectory true
  · rw [Bool.eq_false_iff.2 hnot]
    exact ends_makeMetadataDirectory false

theorem ends_makeContainingDirectory :
    Ends d.packageAccessError (copyingFailure a d d.bundleRequiresInitialization)
      (makeContainingDirectory a d) := by
  have hcopy : Ends d.packageAccessError _ (copyOriginal a d) :=
    Ends.ite (fun _ => Ends.attempt (rfl : Stage.copying.setsError = true)
      (ends_makeTree (a := a) (d := setMetadataDirectoryPath d))) fun _ => ends_makeTree
  rw [copyingFailure, makeContainingDirectory]
  by_cases hex : a.fileExists = true
  · rw [if_pos hex, if_pos hex]
    by_cases hdir : a.isDirectory = true
    · rw [if_pos hdir, if_pos hdir]
      exact hcopy
    · rw [if_neg hdir, if_neg hdir]
      rfl
  · rw [if_neg hex, if_neg hex]
    exact Ends.attempt rfl hcopy

theorem ends_checkResources :
    Ends d.packageAccessError
      ((if d.resourcesCleaned then some (.resourcesCleaned, none)
        else if d.temporaryManuscriptPath.isSome then none else some (.assertion, none)).or
        (copyingFailure a d d.bundleRequiresInitialization))
      (checkResources a d) := by
  rw [checkResources]
  by_cases hcld : d.resourcesCleaned = true
  · rw [if_pos hcld, if_pos hcld]
    exact ⟨rfl, rfl⟩
  · rw [if_neg hcld, if_neg hcld]
    cases hpath : d.temporaryManuscriptPath with
    | none => rfl
    | some path => exact ends_makeContainingDirectory

/-- What an access leaves is told by the first step that fails. -/
theorem ends_packageController (h : d.hasPackageController = false) :
    Ends d.packageAccessError (firstFailure a d) (packageController a d) := by
  rw [packageController, if_neg (by simp [h]), firstFailure]
  by_cases hst : d.bundleRequiresInitialization = true ∧ d.temporaryManuscriptPath.isNone = true
  · have hsts : startsWithTree d = true := by simp [startsWithTree, hst.1, hst.2]
    have hpath : d.temporaryManuscriptPath.isSome = false := by simpa using hst.2
    rw [if_pos hst, hsts]
    refine Ends.initializeState (fun hini => ?_) fun hini => ?_
    · -- The state was initialized before, but the path is not there.
      have hnext := ends_checkResources (a := a) (d := d)
      have hhas : hasPath d = false := by simp [hasPath, hpath, hini]
      rw [hpath] at hnext
      rw [hhas]
      by_cases hcld : d.resourcesCleaned = true
      · rw [if_pos hcld] at hnext ⊢
        exact hnext
      · rw [if_neg hcld] at hnext ⊢
        exact hnext
    · have hhas : hasPath d = true := by simp [hasPath, hst.1, hini]
      have hnext := ends_checkResources (a := a) (d := { d with
        temporaryManuscriptPath := some (d.temporaryManuscriptPath.getD a.temporaryPath)
        bundleRequiresInitialization := false
        bundleInitialized := true })
      rw [hhas, hst.1]
      exact hnext
  · have hsts : startsWithTree d = false :=
      Bool.eq_false_iff.2 fun h => hst (by simpa [startsWithTree] using h)
    have hhas : hasPath d = d.temporaryManuscriptPath.isSome := by
      rw [hasPath]
      cases hpath : d.temporaryManuscriptPath with
      | some path => rfl
      | none =>
        rw [hpath] at hst
        have hreq : d.bundleRequiresInitialization = false := by simpa using hst
        simp [hreq]
    rw [if_neg hst, hsts, hhas, Bool.not_false, Bool.and_true]
    exact ends_checkResources

/-! ### Runs -/

/-- The document, and whether an access to its database has failed. -/
structure Session where
  document : Document
  failed : Bool
  deriving DecidableEq

/-- What a document is asked to do. -/
inductive Event
  | access (a : Answers)
  | write (a : Answers) (filesThere : Bool) (saving : StepOutcome)

namespace Event

/-- The access that an event makes, if it makes one. -/
def accessed (d : Document) : Event → Option (Outcome × Document)
  | access a => some (packageController a d)
  | write a _ _ => writeAccess a d

/-- A document after an event. -/
def run (s : Session) (event : Event) : Session where
  document :=
    match event with
    | access a => (packageController a s.document).2
    | write a filesThere saving => (writeToURL a filesThere saving s.document).2
  failed := s.failed || (event.accessed s.document).any fun result => decide result.1.Fails

/-- An access that fails leaves an error; and a write after it answers no with an error. -/
def Right (s : Session) (event : Event) : Prop :=
  (∀ result ∈ event.accessed s.document, result.1.Fails → result.2.packageAccessError.isSome) ∧
  match event with
  | access _ => True
  | write a filesThere saving => (event.run s).failed = true →
    ∃ error, (writeToURL a filesThere saving s.document).1 = .no (some error)

end Event

/-- The first step that fails leaves an error and is not the initialization of the controller, or
there is an error from before. -/
def Recorded (before : Option DocumentError) :
    Option (Stage × Option DocumentError) → Prop
  | none => True
  | some (.assertion, _) => True
  | some (.initialization, _) => False
  | some (.resourcesCleaned, _) | some (.executePermission, _) => before.isSome
  | some (_, error) => error.isSome

/-- Saving does not succeed, and leaves an error. -/
def StepOutcome.Refuses (saving : StepOutcome) : Prop :=
  ∃ error, saving = .failed (some error)

/-- A write that goes on after a failed access ends with an error. -/
def Refused (filesThere : Bool) (saving : StepOutcome) :
    Option (Stage × Option DocumentError) → Prop
  | none => filesThere = true ∧ saving.Refuses
  | some (stage, _) => stage ≠ .assertion

/-- Where the database is not open, what fails first is recorded; and where an access has failed
before, the document still has an error or no path, or saving fails by itself. -/
def Event.Meets (s : Session) : Event → Prop
  | .access a => s.document.hasPackageController = false →
    Recorded s.document.packageAccessError (firstFailure a s.document)
  | .write a filesThere saving =>
    s.document.packageAccessError = none → s.document.temporaryManuscriptPath.isSome →
      if s.document.hasPackageController then s.failed = true → saving.Refuses
      else
        let failure := firstFailure a (requiringInitialization s.document)
        Recorded none failure ∧ (s.failed = true → Refused filesThere saving failure)

theorem Ends.recorded_iff (h : Ends before failure result) :
    (result.1.Fails → result.2.packageAccessError.isSome) ↔ Recorded before failure := by
  rcases failure with _ | ⟨stage, error⟩
  · simp_all [Ends, Recorded, Outcome.Fails]
  · cases stage <;> simp_all [Ends, Recorded, Outcome.Fails]

theorem Ends.returnedNil {stage : Stage} {error : Option DocumentError}
    (h : Ends none (some (stage, error)) result) (hrcd : Recorded none (some (stage, error)))
    (hsta : stage ≠ .assertion) :
    result.1 = .returnedNil ∧ result.2.packageAccessError.isSome := by
  cases stage <;> simp_all [Ends, Recorded]

theorem saveToURL_eq_no_iff {saving : StepOutcome} :
    (∃ error, saveToURL saving = .no (some error)) ↔ saving.Refuses := by
  cases saving <;> simp [saveToURL, StepOutcome.Refuses]

theorem Ends.finishWrite_iff {filesThere wasFailed : Bool} {saving : StepOutcome}
    (h : Ends none failure result) (hrcd : Recorded none failure) :
    ((wasFailed || decide result.1.Fails) = true →
        ∃ error, (finishWrite filesThere saving result).1 = .no (some error)) ↔
      (wasFailed = true → Refused filesThere saving failure) := by
  obtain ⟨outcome, d⟩ := result
  rcases failure with _ | ⟨stage, error⟩
  · obtain rfl : outcome = .opened true := h
    rw [show decide (Outcome.opened true).Fails = false from rfl, Bool.or_false]
    refine imp_congr_right fun _ => ?_
    cases filesThere with
    | false => simp [finishWrite, Refused]
    | true => simpa [finishWrite, Refused] using saveToURL_eq_no_iff
  · by_cases hsta : stage = .assertion
    · subst hsta
      obtain rfl : outcome = .raised := h
      rw [show decide Outcome.raised.Fails = false from rfl]
      simp [finishWrite, Refused]
    · obtain ⟨rfl, hsome⟩ : outcome = .returnedNil ∧ d.packageAccessError.isSome :=
        h.returnedNil hrcd hsta
      refine iff_of_true (fun _ => ⟨.packageAccessFailed, ?_⟩) fun _ => hsta
      rw [finishWrite, if_pos hsome]

end

/-! ### One event -/

theorem right_access_iff (s : Session) (a : Answers) :
    (Event.access a).Right s ↔ (Event.access a).Meets s := by
  rw [Event.Right, Event.Meets, and_true]
  simp only [Event.accessed, mem_some_iff, forall_eq']
  cases hopen : s.document.hasPackageController with
  | true =>
    rw [packageController, if_pos hopen]
    exact iff_of_true (fun hfls => absurd hfls (by simp [Outcome.Fails])) (by simp)
  | false => simpa using (ends_packageController (a := a) hopen).recorded_iff

theorem right_write_of_none {s : Session} {a : Answers} {filesThere : Bool} {saving : StepOutcome}
    (h : writeAccess a s.document = none) :
    (Event.write a filesThere saving).Right s ↔ (s.failed = true →
      ∃ error, (writeToURL a filesThere saving s.document).1 = .no (some error)) := by
  simp [Event.Right, Event.run, Event.accessed, h]

theorem right_write_iff (s : Session) (a : Answers) (filesThere : Bool) (saving : StepOutcome) :
    (Event.write a filesThere saving).Right s ↔ (Event.write a filesThere saving).Meets s := by
  rw [Event.Meets]
  cases herr : s.document.packageAccessError with
  | some error =>
    rw [right_write_of_none (by simp [writeAccess, herr])]
    refine iff_of_true (fun _ => ⟨error, ?_⟩) fun h => by cases h
    rw [writeToURL, herr]
  | none =>
    cases hpath : s.document.temporaryManuscriptPath with
    | none =>
      rw [right_write_of_none (by simp [writeAccess, hpath])]
      refine iff_of_true (fun _ => ⟨.workingPathMissing, ?_⟩) fun _ h => by cases h
      rw [writeToURL, herr, hpath]
      rfl
    | some path =>
      simp only [isSome_some, true_imp_iff]
      cases hopen : s.document.hasPackageController with
      | true =>
        rw [right_write_of_none (by simp [writeAccess, hopen]), ← saveToURL_eq_no_iff,
          writeToURL, herr, hpath, hopen]
        rfl
      | false =>
        have hacc : writeAccess a s.document =
            some (packageController a (requiringInitialization s.document)) :=
          if_pos (by simp [herr, hpath, hopen])
        have hwt : writeToURL a filesThere saving s.document = finishWrite filesThere saving
            (packageController a (requiringInitialization s.document)) := by
          rw [writeToURL, herr, hpath, hopen]
          rfl
        have hends : Ends s.document.packageAccessError _ _ :=
          ends_packageController (a := a) (d := requiringInitialization s.document) hopen
        rw [herr] at hends
        rw [← hends.recorded_iff]
        simp only [Event.Right, Event.run, Event.accessed, hacc, hwt, mem_some_iff,
          forall_eq']
        exact and_congr_right fun h => hends.finishWrite_iff (hends.recorded_iff.1 h)

theorem Event.right_iff (s : Session) (event : Event) : event.Right s ↔ event.Meets s := by
  cases event with
  | access a => exact right_access_iff s a
  | write a filesThere saving => exact right_write_iff s a filesThere saving

/-- A property of every event of a run, in the session that it happens in. -/
def Along (p : Session → Event → Prop) : List Event → Session → Prop
  | [], _ => True
  | event :: events, s => p s event ∧ Along p events (event.run s)

/-- Every access that fails leaves its error, and every write after it answers no, exactly if every
event meets the condition. -/
theorem access_right_iff (events : List Event) (s : Session) :
    Along (fun s event => event.Right s) events s ↔
      Along (fun s event => event.Meets s) events s := by
  induction events generalizing s with
  | nil => exact Iff.rfl
  | cons event events ih => exact and_congr (Event.right_iff s event) (ih _)

/-- Every step succeeds, on a document that is copied first. -/
def goodAnswers : Answers where
  temporaryPath := "/tmp/untitled.manuscript"
  createTree := .ok
  fileExists := false
  isDirectory := false
  createContaining := .ok
  existsBeforeCopy := false
  copyOriginal := .ok
  existsForMetadata := true
  metadataExists := true
  createMetadata := .ok
  existsForPermissions := true
  directoryFound := true
  readWritePermission := .ok
  executePermission := .ok
  opening := .ok
  initializing := .ok
  initializationError := none

/-- A document that was just read. -/
def readDocument : Document where
  hasPackageController := false
  packageAccessError := none
  temporaryManuscriptPath := some "/tmp/untitled.manuscript"
  temporaryManuscriptMetadataDirectoryPath := none
  bundleRequiresInitialization := false
  bundleInitialized := true
  resourcesCleaned := false
  packageAccessDenied := false
  originalBundleFileURL := some "/Documents/a.manuscript"
  requiresCopying := true

/-- The controller cannot be initialized, or the execute permission not set, and no error is left;
or an error of copying is taken away by the next access. -/
theorem not_right_initialization :
    let failing := packageController { goodAnswers with
      initializing := .failed (some (.foreign "initialization")) } readDocument
    let denied := packageController { goodAnswers with
      executePermission := .failed (some (.foreign "permission")) } readDocument
    let copyFailed := packageController { goodAnswers with
      copyOriginal := .failed (some (.foreign "copying")) } readDocument
    let recovered := packageController goodAnswers copyFailed.2
    (failing.1 = .opened false ∧ failing.2.packageAccessError = none ∧
        (writeToURL goodAnswers true .ok failing.2).1 = .yes) ∧
      (denied.1 = .returnedNil ∧ denied.2.packageAccessError = none) ∧
      (copyFailed.1 = .returnedNil ∧ copyFailed.2.packageAccessError.isSome ∧
        recovered.2.packageAccessError = none ∧
        (writeToURL goodAnswers true .ok recovered.2).1 = .yes) ∧
      ¬Along (fun s event => event.Right s)
        [.access { goodAnswers with initializing := .failed (some (.foreign "initialization")) },
          .write goodAnswers true .ok] ⟨readDocument, false⟩ := by
  refine ⟨by decide, by decide, by decide, ?_⟩
  rintro ⟨⟨hrcd, -⟩, -⟩
  exact absurd (hrcd _ rfl (by decide)) (by decide)

end Feather.Controllers.DocumentAccess
