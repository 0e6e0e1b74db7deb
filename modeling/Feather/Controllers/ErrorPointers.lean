import Mathlib.Tactic

/-!
# Error pointers

`makeTemporaryCopyIntoRootDirectoryWithURL:overwriteIfExists:failIfExists:error:` of
`MPDatabasePackageController.m` and `decodeFromJSONString:error:` of dictionaries and arrays, run
with and without an error pointer.  The methods of the file manager are functions on its state `σ`.
-/

namespace Feather.Controllers.ErrorPointers

variable {σ ε : Type}

/-- The errors of a temporary copy: its own, and those of the file manager. -/
inductive PackageError (ε : Type)
  | rootURLMissing
  | fileNotDirectory (path : String)
  | directoryAlreadyExists (path : String)
  | foreign (error : ε)

/-- The methods of `NSFileManager`, as functions on its state. -/
structure FileManager (σ ε : Type) where
  /-- Whether there is a file, and whether it is a directory. -/
  fileExists : String → σ → Option Bool
  removeItem : String → σ → Option ε × σ
  createDirectory : String → σ → Option ε × σ
  contentsOfDirectory : String → σ → Except ε (List String)
  copyItem : String → String → σ → Option ε × σ

/-- What a method returns, the error that it leaves under the pointer, and the state. -/
structure Outcome (σ α ε : Type) where
  result : α
  error : Option ε
  state : σ

/-- `NO`, with an error if there is a pointer for it. -/
def refuse (pointer : Bool) (error : PackageError ε) (s : σ) : Outcome σ Bool (PackageError ε) :=
  ⟨false, if pointer then some error else none, s⟩

section

variable (fm : FileManager σ ε) (path : String) (pointer : Bool)

/-- A method of the file manager that is handed the pointer, and what comes next. -/
def attempt (answer : Option ε × σ) (next : σ → Outcome σ Bool (PackageError ε)) :
    Outcome σ Bool (PackageError ε) :=
  match answer with
  | (some error, s) => refuse pointer (.foreign error) s
  | (none, s) => next s

/-- `for (NSString *filename in contents)` -/
def copyItems (root : String) : List String → σ → Outcome σ Bool (PackageError ε)
  | [], s => ⟨true, none, s⟩
  | filename :: contents, s =>
    attempt pointer (fm.copyItem (path ++ "/" ++ filename) (root ++ "/" ++ filename) s)
      (copyItems root contents)

/-- The loop over the contents. -/
def copyContents (root : String) (s : σ) : Outcome σ Bool (PackageError ε) :=
  match fm.contentsOfDirectory path s with
  | .error error => refuse pointer (.foreign error) s
  | .ok contents => copyItems fm path pointer root contents s

/-- The directory is made and filled. -/
def createAndCopy (root : String) (s : σ) : Outcome σ Bool (PackageError ε) :=
  attempt pointer (fm.createDirectory root s) (copyContents fm path pointer root)

/-- The path is that of the package. -/
def makeTemporaryCopy (rootURL : Option String) (overwrite failIfExists : Bool) (s : σ) :
    Outcome σ Bool (PackageError ε) :=
  match rootURL with
  | none => refuse pointer .rootURLMissing s
  | some root =>
    match fm.fileExists root s with
    | none => createAndCopy fm path pointer root s
    | some isDirectory =>
      if overwrite then
        attempt pointer (fm.removeItem root s) (createAndCopy fm path pointer root)
      else if pointer && failIfExists then
        refuse pointer (if isDirectory then .directoryAlreadyExists root else .fileNotDirectory root) s
      else ⟨true, none, s⟩

end

/-- `NSJSONSerialization`: the object that a text stands for, and its class. -/
structure JSONSerialization (τ ο ε : Type) where
  jsonObject : τ → Except ε ο
  isDictionary : ο → Bool
  isArray : ο → Bool
  className : ο → String

/-- The errors of the categories of dictionaries and arrays, with their descriptions. -/
inductive ExtensionError
  | unexpectedDictionaryData (localizedDescription : String)
  | unexpectedArrayData (localizedDescription : String)

section

variable {τ ο : Type} (J : JSONSerialization τ ο ε)

/-- `decodeFromJSONString:error:`, for the kind of objects that `isExpected` tells. -/
def decodeFromJSONString (isExpected : ο → Bool) (unexpected : String → ExtensionError)
    (pointer : Bool) (text : τ) : Outcome Unit (Option ο) ExtensionError :=
  match J.jsonObject text with
  | .error _ => ⟨none, if pointer then some (unexpected "(null)") else none, ()⟩
  | .ok object =>
    if isExpected object then ⟨some object, none, ()⟩
    else if pointer then ⟨none, some (unexpected (J.className object)), ()⟩
    else ⟨some object, none, ()⟩

/-- `+decodeFromJSONString:error:` of `NSDictionary` -/
def decodeDictionary : Bool → τ → Outcome Unit (Option ο) ExtensionError :=
  decodeFromJSONString J J.isDictionary fun cls =>
    .unexpectedDictionaryData ("Data cannot be decoded as a dictionary: " ++ cls)

/-- `+decodeFromJSONString:error:` of `NSArray` -/
def decodeArray : Bool → τ → Outcome Unit (Option ο) ExtensionError :=
  decodeFromJSONString J J.isArray fun cls =>
    .unexpectedArrayData ("Data cannot be decoded as an array: " ++ cls)

end

/-! ### Two runs -/

/-- The runs with and without a pointer agree, and a failure leaves an error under the pointer. -/
structure PointerFree {α : Type} (failure : α) (run : Bool → Outcome σ α ε) : Prop where
  result : (run true).result = (run false).result
  state : (run true).state = (run false).state
  error : (run true).result = failure → (run true).error.isSome

section

variable {fm : FileManager σ ε} {path root : String} {s : σ}

theorem pointerFree_refuse (error : PackageError ε) (s : σ) :
    PointerFree false fun pointer => refuse pointer error s :=
  ⟨rfl, rfl, fun _ => rfl⟩

theorem pointerFree_attempt {next : Bool → σ → Outcome σ Bool (PackageError ε)}
    (h : ∀ s, PointerFree false fun pointer => next pointer s) (answer : Option ε × σ) :
    PointerFree false fun pointer => attempt pointer answer (next pointer) := by
  obtain ⟨error, s⟩ := answer
  cases error with
  | some error => exact pointerFree_refuse _ s
  | none => exact h s

theorem pointerFree_copyItems (contents : List String) (s : σ) :
    PointerFree false fun pointer => copyItems fm path pointer root contents s := by
  induction contents generalizing s with
  | nil => exact ⟨rfl, rfl, nofun⟩
  | cons filename contents ih => exact pointerFree_attempt ih _

theorem pointerFree_createAndCopy (s : σ) :
    PointerFree false fun pointer => createAndCopy fm path pointer root s := by
  refine pointerFree_attempt (fun s => ?_) _
  unfold copyContents
  cases fm.contentsOfDirectory path s with
  | error error => exact pointerFree_refuse _ s
  | ok contents => exact pointerFree_copyItems contents s

end

theorem pointerFree_decodeFromJSONString {τ ο : Type} (J : JSONSerialization τ ο ε)
    (isExpected : ο → Bool) (unexpected : String → ExtensionError) (text : τ) :
    (PointerFree none fun pointer => decodeFromJSONString J isExpected unexpected pointer text) ↔
      ∀ object, J.jsonObject text = .ok object → isExpected object = true := by
  unfold decodeFromJSONString
  cases J.jsonObject text with
  | error error => exact iff_of_true ⟨rfl, rfl, fun _ => rfl⟩ nofun
  | ok object =>
    simp only [Except.ok.injEq, forall_eq']
    cases isExpected object with
    | true => exact iff_of_true ⟨rfl, rfl, nofun⟩ rfl
    | false => exact iff_of_false (fun h => by cases h.result) nofun

/-- The pointer makes no difference to a temporary copy exactly if that is not to fail because
something is at its place; nor to decoding exactly if the string is not another kind of object. -/
theorem pointerFree_iff {τ ο : Type} (fm : FileManager σ ε) (path : String) (rootURL : Option String)
    (overwrite failIfExists : Bool) (s : σ) (J : JSONSerialization τ ο ε) (text : τ) :
    ((PointerFree false fun pointer =>
          makeTemporaryCopy fm path pointer rootURL overwrite failIfExists s) ↔
        ∀ root ∈ rootURL, (fm.fileExists root s).isSome → failIfExists = true → overwrite = true) ∧
      ((PointerFree none fun pointer => decodeDictionary J pointer text) ↔
        ∀ object, J.jsonObject text = .ok object → J.isDictionary object = true) ∧
      ((PointerFree none fun pointer => decodeArray J pointer text) ↔
        ∀ object, J.jsonObject text = .ok object → J.isArray object = true) := by
  refine ⟨?_, pointerFree_decodeFromJSONString .., pointerFree_decodeFromJSONString ..⟩
  cases rootURL with
  | none => exact iff_of_true (pointerFree_refuse _ s) nofun
  | some root =>
    simp only [makeTemporaryCopy, Option.mem_some_iff, forall_eq']
    cases fm.fileExists root s with
    | none => exact iff_of_true (pointerFree_createAndCopy s) nofun
    | some isDirectory =>
      cases overwrite with
      | true => exact iff_of_true (pointerFree_attempt pointerFree_createAndCopy _) fun _ _ => rfl
      | false =>
        cases failIfExists with
        | true => exact iff_of_false (fun h => by cases h.result) fun h => by cases h rfl rfl
        | false => exact iff_of_true ⟨rfl, rfl, nofun⟩ nofun

/-- A directory that is there already, and a text that decodes to the other kind of object. -/
theorem not_pointerFree :
    let fm : FileManager Unit Unit := ⟨fun _ _ => some true, fun _ s => (none, s),
      fun _ s => (none, s), fun _ _ => .ok [], fun _ _ s => (none, s)⟩
    -- a text is read as a dictionary if it is `true`, and as an array otherwise
    let J : JSONSerialization Bool Bool Unit := ⟨.ok, id, not, fun _ => ""⟩
    (makeTemporaryCopy fm "/a" true (some "/b") false true ()).result = false ∧
      (makeTemporaryCopy fm "/a" false (some "/b") false true ()).result = true ∧
      (decodeDictionary J true false).result = none ∧
      (decodeDictionary J false false).result = some false ∧
      (decodeArray J true true).result = none ∧ (decodeArray J false true).result = some true :=
  ⟨rfl, rfl, rfl, rfl, rfl, rfl⟩

end Feather.Controllers.ErrorPointers
