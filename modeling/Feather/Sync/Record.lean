import Feather.Embedding.Values
import Feather.Sync.State

/-!
# Records and the repository of records

`CKRecord` as far as it is used, and `CloudKitRecordRepository`, which keeps one record for each
identifier.
-/

namespace Feather.Sync

/-- `CKRecordID` -/
structure RecordID where
  recordName : String
  zoneID : ZoneID
  deriving DecidableEq

/-- The values of a field: strings, numbers, dates, data, arrays of them, and references. -/
inductive RecordValue
  | value (v : Embedding.Value)
  | reference (recordID : RecordID)
  | references (recordIDs : List RecordID)
  deriving DecidableEq

/-- `CKRecord` -/
structure Record where
  recordType : String
  recordID : RecordID
  recordChangeTag : Option String
  fields : Dictionary String RecordValue
  deriving DecidableEq

namespace Record

/-- `object(forKey:)` -/
def object (key : String) (record : Record) : Option RecordValue :=
  record.fields.lookup key

/-- `setObject(_:forKey:)` -/
def setObject (value : RecordValue) (key : String) (record : Record) : Record :=
  { record with fields := record.fields.insert key value }

end Record

/-- What the server reports of a zone. -/
inductive ServerChange
  | changed (record : Record)
  | deleted (recordID : RecordID)
  deriving DecidableEq

/-- `CloudKitRecordRepository` -/
abbrev RecordRepository := Dictionary RecordID Record

end Feather.Sync
