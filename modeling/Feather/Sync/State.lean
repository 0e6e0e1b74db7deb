import Mathlib.Data.List.AList
import Mathlib.Data.List.Induction

/-!
# The state kept between two synchronizations

`CloudKitState` holds the change token of each record zone that was pulled.  It is written to
the package as JSON (`toJSON`) and read back at the next start (`ofJSON`, the `init(json:)` of
the source).
-/

namespace Feather.Sync

open List AList

/-- A dictionary of the source. -/
abbrev Dictionary (κ ν : Type) := AList fun _ : κ => ν

section

variable {κ ν : Type} [DecidableEq κ]

/-- `init(withPairs:)`: a later pair replaces an earlier one with its key. -/
def Dictionary.withPairs (pairs : List (κ × ν)) : Dictionary κ ν :=
  pairs.foldl (fun d p => d.insert p.1 p.2) ∅

theorem Dictionary.withPairs_concat (pairs : List (κ × ν)) (p : κ × ν) :
    withPairs (pairs ++ [p]) = (withPairs pairs).insert p.1 p.2 :=
  foldl_concat ..

theorem Dictionary.mem_of_lookup_withPairs {pairs : List (κ × ν)} {k : κ} {v : ν}
    (h : (withPairs pairs).lookup k = some v) : (k, v) ∈ pairs := by
  induction pairs using reverseRecOn with
  | nil => cases h
  | append_singleton pairs p ih =>
    rw [withPairs_concat] at h
    by_cases hk : k = p.1
    · subst hk
      rw [lookup_insert] at h
      simp [← Option.some.inj h]
    · rw [lookup_insert_ne hk] at h
      exact mem_append_left _ (ih h)

theorem Dictionary.exists_lookup_withPairs {pairs : List (κ × ν)} {k : κ}
    (h : k ∈ pairs.map Prod.fst) : ∃ v, (withPairs pairs).lookup k = some v := by
  induction pairs using reverseRecOn with
  | nil => cases h
  | append_singleton pairs p ih =>
    rw [withPairs_concat]
    by_cases hk : k = p.1
    · exact ⟨p.2, hk ▸ lookup_insert _⟩
    · rw [lookup_insert_ne hk]
      rw [map_append, mem_append] at h
      exact ih (h.resolve_right (by simpa using hk))

theorem Dictionary.lookup_withPairs_append (pairs rest : List (κ × ν)) (k : κ) :
    (withPairs (pairs ++ rest)).lookup k =
      ((withPairs rest).lookup k).or ((withPairs pairs).lookup k) := by
  induction rest using reverseRecOn with
  | nil => simp [withPairs]
  | append_singleton rest p ih =>
    rw [← append_assoc, withPairs_concat, withPairs_concat]
    by_cases hk : k = p.1
    · rw [hk, lookup_insert, lookup_insert, Option.some_or]
    · rw [lookup_insert_ne hk, lookup_insert_ne hk, ih]

theorem Dictionary.lookup_withPairs_map (keys : List κ) (v : ν) (k : κ) :
    (withPairs (keys.map fun key => (key, v))).lookup k = if k ∈ keys then some v else none := by
  induction keys using reverseRecOn with
  | nil => rfl
  | append_singleton keys key ih =>
    rw [map_append, map_singleton, withPairs_concat]
    by_cases hk : k = key
    · rw [hk]
      simp
    · rw [lookup_insert_ne hk, ih]
      simp [hk]

/-- Of pairs that come in groups, the last group with the key decides. -/
theorem Dictionary.lookup_withPairs_flatMap {ι : Type} (f : ι → List (κ × ν)) (groups : List ι)
    (k : κ) : (withPairs (groups.flatMap f)).lookup k =
      groups.reverse.findSome? fun group => (withPairs (f group)).lookup k := by
  induction groups using reverseRecOn with
  | nil => rfl
  | append_singleton groups last ih =>
    rw [flatMap_append, flatMap_singleton, lookup_withPairs_append, ih,
      reverse_concat, findSome?_cons]
    cases (withPairs (f last)).lookup k <;> rfl

end

/-! ### JSON -/

/-- The JSON values that are written and read. -/
inductive JSON
  | string (s : String)
  | array (items : List JSON)
  | dictionary (entries : List (String × JSON))

/-- What reading a JSON value may throw. -/
inductive JSONError
  | unexpectedSubscript (key : String)
  | keyNotFound (key : String)
  | valueNotConvertible (key : String)
  deriving DecidableEq

/-! ### Tokens and zones -/

/-- `CKRecordZoneID` -/
structure ZoneID where
  zoneName : String
  ownerName : String
  deriving DecidableEq

/-- The keyed archiver, the Base64 coding and the JSON library, which are not part of the repository.
The methods `getString(at:)` and `getArray(at:)` answer what a dictionary has under a key, and throw an
error for a key that it does not have. -/
structure Archiving (τ : Type) where
  archivedData : τ → List UInt8
  unarchiveObject : List UInt8 → Option τ
  base64EncodedString : List UInt8 → String
  base64Decoded : String → Option (List UInt8)
  getString : JSON → String → Except JSONError String
  getArray : JSON → String → Except JSONError (List JSON)
  getString_of_lookup : ∀ entries key s, entries.lookup key = some (.string s) →
    getString (.dictionary entries) key = .ok s
  getString_of_missing : ∀ entries key, entries.lookup key = none →
    getString (.dictionary entries) key = .error (.keyNotFound key)
  getArray_of_lookup : ∀ entries key items, entries.lookup key = some (.array items) →
    getArray (.dictionary entries) key = .ok items

variable {τ : Type}

/-- The tokens of the zones, and the owner of the package. -/
structure CloudKitState (τ : Type) where
  recordZones : Dictionary ZoneID τ
  ownerName : String

namespace CloudKitState

/-- The state of a package that was never synchronized. -/
def new (ownerName : String) : CloudKitState τ :=
  ⟨∅, ownerName⟩

/-- The token of a zone. -/
def serverChangeToken (zoneID : ZoneID) (state : CloudKitState τ) : Option τ :=
  state.recordZones.lookup zoneID

/-- A token is set. -/
def setServerChangeToken (token : τ) (zoneID : ZoneID) (state : CloudKitState τ) :
    CloudKitState τ :=
  { state with recordZones := state.recordZones.insert zoneID token }

theorem serverChangeToken_setServerChangeToken (token : τ) (zoneID other : ZoneID)
    (state : CloudKitState τ) :
    (state.setServerChangeToken token zoneID).serverChangeToken other =
      if other = zoneID then some token else state.serverChangeToken other := by
  by_cases h : other = zoneID
  · rw [if_pos h, h]
    exact lookup_insert state.recordZones
  · rw [if_neg h]
    exact lookup_insert_ne h

/-- Token updates, one after another. -/
def setServerChangeTokens (updates : List (ZoneID × τ)) (state : CloudKitState τ) :
    CloudKitState τ :=
  updates.foldl (fun s u => s.setServerChangeToken u.2 u.1) state

/-- What the closure of `toJSON` makes of one zone: its owner is not written. -/
def itemToJSON (A : Archiving τ) (zoneID : ZoneID) (token : τ) : JSON :=
  .dictionary
    [("zoneName", .string zoneID.zoneName),
      ("serverChangeToken", .string (A.base64EncodedString (A.archivedData token)))]

/-- The archived state. -/
def toJSON (A : Archiving τ) (state : CloudKitState τ) : JSON :=
  .dictionary
    [("ownerName", .string state.ownerName),
      ("recordZones", .array (state.recordZones.entries.map fun e => itemToJSON A e.1 e.2))]

/-- The closure of `init(json:)`.  A missing key is an error, an unreadable token is not. -/
def itemOfJSON (A : Archiving τ) (item : JSON) : Except JSONError (Option (ZoneID × τ)) := do
  let zoneName ← A.getString item "zoneName"
  let ownerName ← A.getString item "ownerName"
  let tokenStr ← A.getString item "serverChangeToken"
  return do
    let data ← A.base64Decoded tokenStr
    let token ← A.unarchiveObject data
    return (⟨zoneName, ownerName⟩, token)

/-- `init(json:)` -/
def ofJSON (A : Archiving τ) (json : JSON) : Except JSONError (CloudKitState τ) := do
  let ownerName ← A.getString json "ownerName"
  let recordZones ← A.getArray json "recordZones"
  let items ← recordZones.mapM (itemOfJSON A)
  return ⟨Dictionary.withPairs items.reduceOption, ownerName⟩

/-! ### Writing and reading -/

theorem mapM_itemOfJSON (A : Archiving τ) (entries : List (Sigma fun _ : ZoneID => τ)) :
    (entries.map fun e => itemToJSON A e.1 e.2).mapM (itemOfJSON A) =
      if entries = [] then .ok [] else .error (.keyNotFound "ownerName") := by
  cases entries with
  | nil => rfl
  | cons e entries =>
    have hitem : itemOfJSON A (itemToJSON A e.1 e.2) = .error (.keyNotFound "ownerName") := by
      rw [itemOfJSON, itemToJSON, A.getString_of_lookup _ "zoneName" _ rfl,
        A.getString_of_missing _ "ownerName" rfl]
      rfl
    rw [map_cons, mapM_cons, hitem]
    rfl

/-- Reading a written state fails as soon as there is a zone in it. -/
theorem ofJSON_toJSON (A : Archiving τ) (state : CloudKitState τ) :
    ofJSON A (toJSON A state) =
      if state.recordZones.entries = [] then .ok (new state.ownerName)
      else .error (.keyNotFound "ownerName") := by
  have hread : ofJSON A (toJSON A state) = do
      let items ← (state.recordZones.entries.map fun e => itemToJSON A e.1 e.2).mapM (itemOfJSON A)
      return ⟨Dictionary.withPairs items.reduceOption, state.ownerName⟩ := by
    rw [ofJSON, toJSON, A.getString_of_lookup _ "ownerName" _ rfl,
      A.getArray_of_lookup _ "recordZones" _ rfl]
    rfl
  rw [hread, mapM_itemOfJSON]
  split
  · rfl
  · rfl

/-- The state that is read has the owner and the tokens of the one that was written. -/
def RoundTrips (A : Archiving τ) (state : CloudKitState τ) : Prop :=
  ∃ read, ofJSON A (toJSON A state) = .ok read ∧ read.ownerName = state.ownerName ∧
    ∀ zoneID, read.serverChangeToken zoneID = state.serverChangeToken zoneID

theorem roundTrips_iff_empty (A : Archiving τ) (state : CloudKitState τ) :
    RoundTrips A state ↔ state.recordZones = ∅ := by
  have hemp : state.recordZones = ∅ ↔ state.recordZones.entries = [] := AList.ext_iff
  unfold RoundTrips
  rw [ofJSON_toJSON, hemp]
  constructor
  · rintro ⟨read, hread, -⟩
    by_contra h
    rw [if_neg h] at hread
    cases hread
  · intro h
    rw [if_pos h]
    refine ⟨_, rfl, rfl, fun zoneID => ?_⟩
    unfold serverChangeToken new
    rw [hemp.2 h]

theorem insert_ne_empty (d : Dictionary ZoneID τ) (zoneID : ZoneID) (token : τ) :
    d.insert zoneID token ≠ ∅ := by
  intro h
  have hmem : zoneID ∈ d.insert zoneID token := by simp
  rw [h] at hmem
  exact notMem_empty zoneID hmem

theorem setServerChangeTokens_eq_empty_iff (updates : List (ZoneID × τ)) (state : CloudKitState τ) :
    (state.setServerChangeTokens updates).recordZones = ∅ ↔
      updates = [] ∧ state.recordZones = ∅ := by
  induction updates generalizing state with
  | nil => simp [setServerChangeTokens]
  | cons u updates ih =>
    have hstep := ih (state.setServerChangeToken u.2 u.1)
    have hne := insert_ne_empty state.recordZones u.1 u.2
    simp only [setServerChangeTokens, foldl_cons] at hstep ⊢
    rw [hstep]
    simp [setServerChangeToken, hne]

/-- A written state is read back exactly if it has no tokens and got none. -/
theorem roundTrips_setServerChangeTokens_iff (A : Archiving τ) (updates : List (ZoneID × τ))
    (state : CloudKitState τ) :
    RoundTrips A (state.setServerChangeTokens updates) ↔
      updates = [] ∧ state.recordZones = ∅ := by
  rw [roundTrips_iff_empty, setServerChangeTokens_eq_empty_iff]

/-- A coding that has one character a byte, and a library that reads texts and arrays only. -/
def plainArchiving (archivedData : τ → List UInt8) (unarchiveObject : List UInt8 → Option τ) :
    Archiving τ where
  archivedData := archivedData
  unarchiveObject := unarchiveObject
  base64EncodedString data := String.ofList (data.map fun b => Char.ofNat b.toNat)
  base64Decoded s := some (s.toList.map fun c => UInt8.ofNat c.toNat)
  getString
    | .dictionary entries, key =>
      match entries.lookup key with
      | some (.string s) => .ok s
      | some _ => .error (.valueNotConvertible key)
      | none => .error (.keyNotFound key)
    | _, key => .error (.unexpectedSubscript key)
  getArray
    | .dictionary entries, key =>
      match entries.lookup key with
      | some (.array items) => .ok items
      | some _ => .error (.valueNotConvertible key)
      | none => .error (.keyNotFound key)
    | _, key => .error (.unexpectedSubscript key)
  getString_of_lookup entries key s h := by simp [h]
  getString_of_missing entries key h := by simp [h]
  getArray_of_lookup entries key items h := by simp [h]

/-- One token for one zone of the owner itself is already lost. -/
theorem not_roundTrips_one_token :
    ¬RoundTrips (plainArchiving (fun token => token) some)
      ((new "_owner").setServerChangeTokens [(⟨"MPContributor-zone", "_owner"⟩, [1, 2])]) := by
  rintro ⟨read, hread, -⟩
  cases hread

end CloudKitState

end Feather.Sync
