import Feather.Model.EmbeddedObject

/-!
# Values of properties, in memory and in the document

The value of a property is a leaf, an embedded object, an array or a dictionary; the entries of an
embedded object are its `_properties`, with its identifier under `_id` and its class under
`objectType`.  In the document there are only strings, numbers, arrays and dictionaries.
-/

namespace Feather.Embedding

open Keyed
open Feather.Model (Key)

/-- A reference to a managed object is kept as the string of its identifier. -/
inductive Leaf
  | string (s : String)
  | number (q : ℚ)
  | date (t : ℚ)
  | data (bytes : List UInt8)
  | url (address : String)
  deriving DecidableEq

/-- An embedded object knows its key and the object that embeds it. -/
inductive Kind
  | object (embeddingKey : String) (embeddingObject : Option String)
  | array
  | dictionary
  deriving DecidableEq

/-- The entries of an object or a collection. -/
abbrev Content := Tree Key Leaf Kind

/-- A value, or an object or a collection. -/
abbrev Value := Entry Key Leaf Kind

namespace Kind

def isObject : Kind → Bool
  | object _ _ => true
  | _ => false

end Kind

/-- The texts of `CBLJSON` and `NSJSONSerialization`, which are not part of the repository. -/
structure Coding where
  dateText : ℚ → String
  dateOfText : String → Option ℚ
  dataText : List UInt8 → String
  dataOfText : String → Option (List UInt8)
  jsonText : Value → String
  jsonOfText : String → Option Value

/-- Reading a date or data gives back what was written. -/
structure Coding.RoundTrips (coding : Coding) : Prop where
  date : ∀ t, coding.dateOfText (coding.dateText t) = some t
  data : ∀ bytes, coding.dataOfText (coding.dataText bytes) = some bytes

/-- The text of a value is read as the value. -/
def Coding.Reads (coding : Coding) (value : Value) : Prop :=
  coding.jsonOfText (coding.jsonText value) = some value

/-- The string under a key. -/
def stringAt (key : String) (content : Content) : Option String :=
  match content.get? (.name key) with
  | some (.value (.string s)) => some s
  | _ => none

/-- `_id` -/
def identifier (content : Content) : Option String := stringAt "_id" content

/-- `objectType` -/
def objectType (content : Content) : Option String := stringAt "objectType" content

/-- `hasPrefix:` -/
def hasPrefix (start s : String) : Bool := start.toList.isPrefixOf s.toList

/-! ### Externalization -/

section

variable (coding : Coding)

/-- Dates and data become texts. -/
def externalizeLeaf : Leaf → Leaf
  | .date t => .string (coding.dateText t)
  | .data bytes => .string (coding.dataText bytes)
  | v => v

/-- `dictionaryRepresentation` of the entries of an embedded object or a collection. -/
def externalizeEntries (inCollection : Bool) : Content → Content
  | .nil => .nil
  | .value k v rest =>
    .value k (if inCollection then v else externalizeLeaf coding v)
      (externalizeEntries inCollection rest)
  | .node k (.object _ _) entries rest =>
    .node k .dictionary (externalizeEntries false entries) (externalizeEntries inCollection rest)
  | .node k kind entries rest =>
    .node k kind (if inCollection then entries else externalizeEntries true entries)
      (externalizeEntries inCollection rest)

/-- `externalizePropertyValue:` of the managed object; its superclass writes a URL as its
address. -/
def externalizePropertyValue : Value → Value
  | .value (.url address) => .value (.string address)
  | .value v => .value (externalizeLeaf coding v)
  | .node (.object _ _) entries => .node .dictionary (externalizeEntries coding false entries)
  | .node kind entries => .node kind (externalizeEntries coding true entries)

/-- The document that a save of all properties writes. -/
def document : Content → Content
  | .nil => .nil
  | .value k v rest => .cons k (externalizePropertyValue coding (.value v)) (document rest)
  | .node k kind entries rest =>
    .cons k (externalizePropertyValue coding (.node kind entries)) (document rest)

/-- What `externalizeEntries false` makes of one entry. -/
def externalizeEntry : Value → Value
  | .value v => .value (externalizeLeaf coding v)
  | .node (.object _ _) entries => .node .dictionary (externalizeEntries coding false entries)
  | .node kind entries => .node kind (externalizeEntries coding true entries)

theorem externalizeEntries_cons (k : Key) (e : Value) (rest : Content) :
    externalizeEntries coding false (.cons k e rest) =
      .cons k (externalizeEntry coding e) (externalizeEntries coding false rest) := by
  cases e with
  | value v => rfl
  | node kind entries => cases kind <;> rfl

theorem document_cons (k : Key) (e : Value) (rest : Content) :
    document coding (.cons k e rest) =
      .cons k (externalizePropertyValue coding e) (document coding rest) := by
  cases e <;> rfl

theorem get?_externalizeEntries (k : Key) (content : Content) :
    (externalizeEntries coding false content).get? k =
      (content.get? k).map (externalizeEntry coding) := by
  induction content using Tree.level_induction with
  | nil => rfl
  | cons k' e rest ih =>
    rw [externalizeEntries_cons, Tree.get?_cons, Tree.get?_cons, ih]
    split <;> rfl

theorem stringAt_externalizeEntries {key s : String} {content : Content}
    (h : stringAt key content = some s) :
    stringAt key (externalizeEntries coding false content) = some s := by
  unfold stringAt at h ⊢
  rw [get?_externalizeEntries]
  split at h
  · next hget =>
    rw [hget]
    exact h
  · cases h

theorem identifier_externalizeEntries {id : String} {content : Content}
    (h : identifier content = some id) :
    identifier (externalizeEntries coding false content) = some id :=
  stringAt_externalizeEntries coding h

theorem objectType_externalizeEntries {className : String} {content : Content}
    (h : objectType content = some className) :
    objectType (externalizeEntries coding false content) = some className :=
  stringAt_externalizeEntries coding h

end

end Feather.Embedding
