import Feather.Keyed.Tree

/-!
# JSON strings of collections

`-JSONStringRepresentation:` of `NSArray+MPExtensions.m` and `NSDictionary+MPExtensions.m`, which
call each other for what is nested.  A JSON string is what it decodes to here; keys are those of a
dictionary, in the order of its enumeration, or the indexes of an array.
-/

namespace Feather.Extensions.JSONStrings

open Keyed

variable {κ J : Type}

/-- `NSArray` and `NSDictionary`. -/
inductive Collection
  | array
  | dictionary
  deriving DecidableEq

/-- What `-JSONStringRepresentation:` of an object returns: `nil` with the error set, a string from
which `JSONObjectWithData:options:error:` makes no object, such as a fragment, or one that decodes. -/
inductive Representation (J : Type)
  | failed
  | undecodable
  | decodes (value : J)

/-- What is in a collection beside other collections. -/
inductive Leaf (J : Type)
  | json (value : J)
  | representable (representation : Representation J)

/-- An exception, or what is returned and whether the error was set. -/
inductive Outcome (α : Type)
  | raised
  | returned (string : Option α) (error : Bool)
  deriving DecidableEq

namespace Outcome

variable {α β : Type}

/-- What an entry is made of, from the string of its representation: `none` in it stands for a
string that does not decode.  Without an object an array has `null`.  A dictionary gives `nil` to
`JSONObjectWithData:options:error:`, which raises, and returns `nil` where nothing is decoded. -/
def entry (collection : Collection) (null : α) : Outcome (Option α) → Outcome α
  | raised => raised
  | returned (some (some value)) error => returned (some value) error
  | returned none error =>
    match collection with
    | .array => returned (some null) error
    | .dictionary => raised
  | returned (some none) error =>
    match collection with
    | .array => returned (some null) error
    | .dictionary => returned none true

/-- An entry and those that follow it. -/
def followedBy : Outcome (α → β) → Outcome α → Outcome β
  | raised, _ => raised
  | returned none error, _ => returned none error
  | returned (some _) _, raised => raised
  | returned (some entry) error, returned rest error' => returned (rest.map entry) (error || error')

/-- The string of a nested collection decodes. -/
def nested (f : α → β) : Outcome α → Outcome (Option β)
  | raised => raised
  | returned string error => returned (string.map fun value => some (f value)) error

end Outcome

/-- The string of an object. -/
def Representation.outcome {α : Type} (f : J → α) : Representation J → Outcome (Option α)
  | failed => .returned none true
  | undecodable => .returned (some none) false
  | decodes value => .returned (some (some (f value))) false

section

variable (null : J)

/-- `-JSONStringRepresentation:` -/
def jsonStringRepresentation (collection : Collection) :
    Tree κ (Leaf J) Collection → Outcome (Tree κ J Collection)
  | .nil => .returned (some .nil) false
  | .value key (.json value) rest =>
    Outcome.followedBy (.returned (some (.value key value)) false)
      (jsonStringRepresentation collection rest)
  | .value key (.representable representation) rest =>
    Outcome.followedBy (.entry collection (.value key null) (representation.outcome (.value key)))
      (jsonStringRepresentation collection rest)
  | .node key nested entries rest =>
    Outcome.followedBy (.entry collection (.value key null)
        (.nested (.node key nested) (jsonStringRepresentation nested entries)))
      (jsonStringRepresentation collection rest)

/-- Every object at any depth has a string that decodes. -/
def Represented : Tree κ (Leaf J) Collection → Prop
  | .nil => True
  | .value _ (.json _) rest => Represented rest
  | .value _ (.representable (.decodes _)) rest => Represented rest
  | .value _ (.representable _) _ => False
  | .node _ _ entries rest => Represented entries ∧ Represented rest

/-- The same structure with the decoded representations of the objects. -/
def decoded : Tree κ (Leaf J) Collection → Tree κ J Collection
  | .nil => .nil
  | .value key (.json value) rest => .value key value (decoded rest)
  | .value key (.representable (.decodes value)) rest => .value key value (decoded rest)
  | .value key (.representable _) rest => .value key null (decoded rest)
  | .node key nested entries rest => .node key nested (decoded entries) (decoded rest)

/-- The string decodes to the structure, or a failure is told. -/
def Right (collection : Collection) (entries : Tree κ (Leaf J) Collection) : Prop :=
  (Represented entries →
    jsonStringRepresentation null collection entries = .returned (some (decoded null entries)) false) ∧
  (¬Represented entries → jsonStringRepresentation null collection entries = .returned none true)

end

mutual

/-- A string is made of the collection: an array has something for every entry but one that raises,
a dictionary needs an object for each. -/
def Written : Collection → Tree κ (Leaf J) Collection → Prop
  | _, .nil => True
  | collection, .value _ (.json _) rest => Written collection rest
  | collection, .value _ (.representable (.decodes _)) rest => Written collection rest
  | collection, .value _ (.representable _) rest => collection = .array ∧ Written collection rest
  | collection, .node _ nested entries rest =>
    (Written nested entries ∨
      collection = .array ∧ nested = .dictionary ∧ Refused entries) ∧ Written collection rest

/-- The first entry of a dictionary for which there is no object is one whose string does not
decode. -/
def Refused : Tree κ (Leaf J) Collection → Prop
  | .nil => False
  | .value _ (.json _) rest => Refused rest
  | .value _ (.representable (.decodes _)) rest => Refused rest
  | .value _ (.representable .undecodable) _ => True
  | .value _ (.representable .failed) _ => False
  | .node _ nested entries rest => Written nested entries ∧ Refused rest

end

variable {null : J} {collection : Collection} {entries : Tree κ (Leaf J) Collection}

theorem jsonStringRepresentation_of_represented (h : Represented entries) :
    jsonStringRepresentation null collection entries =
      .returned (some (decoded null entries)) false := by
  induction entries generalizing collection with
  | nil => rfl
  | value key leaf rest ih =>
    match leaf with
    | .json value =>
      rw [jsonStringRepresentation, ih h]
      rfl
    | .representable (.decodes value) =>
      rw [jsonStringRepresentation, ih h]
      rfl
  | node key nested entries rest ihe ihr =>
    rw [jsonStringRepresentation, ihe h.1, ihr h.2]
    rfl

/-! ### What is returned -/

namespace Outcome

variable {α β : Type}

/-- A string is returned. -/
def IsString (o : Outcome α) : Prop := ∃ string error, o = returned (some string) error

theorem isString_followedBy (first : Outcome (α → β)) (rest : Outcome α) :
    (followedBy first rest).IsString ↔ first.IsString ∧ rest.IsString := by
  rcases first with _ | ⟨_ | entry, error⟩ <;> rcases rest with _ | ⟨_ | string, error'⟩ <;>
    simp [followedBy, IsString]

theorem followedBy_eq_nil {first : Outcome (α → β)} {rest : Outcome α}
    (hrest : ∀ e, rest = returned none e → e = true) (error : Bool) :
    followedBy first rest = returned none error ↔ first = returned none error ∨
      first.IsString ∧ rest = returned none true ∧ error = true := by
  rcases first with _ | ⟨_ | entry, e⟩
  · simp [followedBy, IsString]
  · simp [followedBy, IsString]
  · rcases rest with _ | ⟨_ | string, e'⟩
    · simp [followedBy]
    · obtain rfl := hrest e' rfl
      simp [followedBy, IsString, eq_comm]
    · simp [followedBy]

theorem isString_entry (null : α) (o : Outcome (Option α)) :
    (entry collection null o).IsString ↔ (∃ value error, o = returned (some (some value)) error) ∨
      collection = .array ∧ ∃ string error, o = returned string error := by
  rcases o with _ | ⟨_ | _ | value, error⟩ <;> cases collection <;> simp [entry, IsString]

theorem entry_eq_nil (null : α) (o : Outcome (Option α)) (error : Bool) :
    entry collection null o = returned none error ↔
      collection = .dictionary ∧ error = true ∧ ∃ e, o = returned (some none) e := by
  rcases o with _ | ⟨_ | _ | value, e⟩ <;> cases collection <;> simp [entry, eq_comm]

end Outcome

/-- A string is returned, or `nil` with the error, or an exception is raised. -/
theorem jsonStringRepresentation_spec (null : J) (collection : Collection)
    (entries : Tree κ (Leaf J) Collection) :
    ((jsonStringRepresentation null collection entries).IsString ↔ Written collection entries) ∧
      ∀ error, jsonStringRepresentation null collection entries = .returned none error ↔
        collection = .dictionary ∧ Refused entries ∧ error = true := by
  induction entries generalizing collection with
  | nil => simp [jsonStringRepresentation, Outcome.IsString, Written, Refused]
  | value key leaf rest ih =>
    obtain ⟨hstr, hnil⟩ := ih collection
    have hrest (e : Bool) (h : jsonStringRepresentation null collection rest = .returned none e) :
        e = true := ((hnil e).1 h).2.2
    match leaf with
    | .json value =>
      simp only [jsonStringRepresentation, Outcome.isString_followedBy,
        Outcome.followedBy_eq_nil hrest, hstr, hnil, Written, Refused]
      simp [Outcome.IsString]
    | .representable representation =>
      simp only [jsonStringRepresentation, Outcome.isString_followedBy,
        Outcome.followedBy_eq_nil hrest, Outcome.isString_entry, Outcome.entry_eq_nil, hstr, hnil]
      cases representation <;> cases collection <;>
        simp [Representation.outcome, Written, Refused]
  | node key nested entries rest ihe ihr =>
    obtain ⟨hstr, hnil⟩ := ihr collection
    have hrest (e : Bool) (h : jsonStringRepresentation null collection rest = .returned none e) :
        e = true := ((hnil e).1 h).2.2
    obtain ⟨hstr', hnil'⟩ := ihe nested
    have href : (nested = .dictionary ∧ Refused entries) ↔
        ∃ e, jsonStringRepresentation null nested entries = .returned none e := by
      simp [hnil']
    simp only [jsonStringRepresentation, Outcome.isString_followedBy,
      Outcome.followedBy_eq_nil hrest, Outcome.isString_entry, Outcome.entry_eq_nil, hstr, hnil,
      Written, Refused, ← hstr', href]
    generalize jsonStringRepresentation null nested entries = o
    rcases o with _ | ⟨_ | string, e⟩ <;> cases collection <;>
      simp [Outcome.nested, Outcome.IsString]

/-- The methods do as they should exactly if every object has a string that decodes, or a dictionary
comes to one whose string does not before anything raises. -/
theorem right_iff_represented (null : J) (collection : Collection)
    (entries : Tree κ (Leaf J) Collection) : Right null collection entries ↔
      Represented entries ∨ collection = .dictionary ∧ Refused entries := by
  have hnil := (jsonStringRepresentation_spec null collection entries).2 true
  rw [and_iff_left rfl] at hnil
  rw [← hnil]
  by_cases hrep : Represented entries
  · exact iff_of_true ⟨jsonStringRepresentation_of_represented, fun h => absurd hrep h⟩ (.inl hrep)
  · rw [or_iff_right hrep]
    exact ⟨fun h => h.2 hrep, fun h => ⟨fun h' => absurd h' hrep, fun _ => h⟩⟩

/-- For an object without a string, or with one that does not decode, `[null]` is returned; for one
without a string the dictionary raises. -/
theorem jsonStringRepresentation_failing :
    jsonStringRepresentation () .array (.value 0 (.representable .failed) .nil) =
        .returned (some (.value 0 () .nil)) true ∧
      jsonStringRepresentation () .array (.value 0 (.representable .undecodable) .nil) =
        .returned (some (.value 0 () .nil)) false ∧
      jsonStringRepresentation () .dictionary (.value "key" (.representable .failed) .nil) =
        .raised :=
  ⟨rfl, rfl, rfl⟩

end Feather.Extensions.JSONStrings
