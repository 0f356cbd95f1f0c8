import IndexedStore.Index.Definition
import IndexedStore.Slots.Ordered
import IndexedStore.Slots.Unique

/-!
# Errors

The causes for which an operation can be refused, and the text of each: the variants of `StorageError` that
the library returns, one for each text that its functions give an `InvalidArgument` or an `EntryNotFound`.
Three causes are no variants of it: `overlappingClauses` and `improperBounds` stand for panics, and `entryLocked`
for waiting on a mutation that waits for the caller.
-/

namespace IndexedStore

/-- What a region's settings can lack, by `RegionConfig::validate`. -/
inductive SettingsFault where
  | noBuckets
  | noResidents
  | noStripes
deriving Repr, DecidableEq

namespace SettingsFault

def message : SettingsFault → String
  | noBuckets => "partitioned region needs at least one bucket"
  | noResidents => "overflow eviction needs max_resident_entries >= 1"
  | noStripes => "hash index needs at least one stripe"

end SettingsFault

inductive Error where
  /-- The name is that of an index, or of a definition, of the region. -/
  | nameTaken (name region : String)
  /-- An index with the same signature is there. -/
  | duplicateIndex (name existing : String)
  | indexNotFound (name : String)
  | indexNotFoundOn (name region : String)
  | indexRemoved (name : String)
  | unsupported (index : String) (kind : IndexKind) (operator : String)
  | scopeMismatch (index : String) (indexShape queryShape : ScopeShape)
  | violation (cause : Violation)
  | evaluation (cause : EvaluationFault)
  | parse (cause : ParseFault)
  | regionNotFound (path : String)
  | regionExists (path : String)
  | regionDestroyed (path : String)
  | entryNotFound (key : Key) (region : String)
  /-- An evicted value has no backing store to be read from. -/
  | noBackingStore (key : Key)
  /-- An evicted value is not in the backing store. -/
  | notInBackingStore (key : Key)
  | badSettings (cause : SettingsFault)
  /-- A text is not the settings of a region. -/
  | unreadableSettings
  | notPersistent (path : String)
  | foreignIndex (name target region : String)
  | foreignDefinition (name target region : String)
  | foreignQuery (target region : String)
  /-- The index a query names is on another path than its predicate. -/
  | hintedPath (index indexed queried : String)
  /-- The parts of a query's text overlap: one would end before it starts. -/
  | overlappingClauses (start stop : Nat)
  /-- A range of keys was asked for whose bounds are not proper. -/
  | improperBounds (cause : BoundsFault)
  /-- The entry is locked by a mutation in progress. -/
  | entryLocked (key : Key)
deriving Repr, DecidableEq

namespace Error

def message : Error → String
  | nameTaken name region =>
    "Index '" ++ name ++ "' already exists or is already defined on region " ++ region
  | duplicateIndex name existing =>
    "Index '" ++ name ++ "' duplicates existing index '" ++ existing ++
      "' (same kind, expression and scope)"
  | indexNotFound name => "Index not found: " ++ name
  | indexNotFoundOn name region => "Index not found: " ++ name ++ " on " ++ region
  | indexRemoved name => "Index '" ++ name ++ "' has been removed"
  | unsupported index kind operator =>
    "Index '" ++ index ++ "' (" ++ kind.name ++ ") does not support operator " ++ operator
  | scopeMismatch index indexShape queryShape =>
    "Index '" ++ index ++ "' scope " ++ indexShape.display ++ " does not cover query scope " ++
      queryShape.display
  | violation v =>
    "Primary key index '" ++ v.index ++ "': value " ++ v.value.display ++ " already maps to key " ++
      v.owner.display ++ ", rejected key " ++ v.key.display
  | evaluation cause => "Evaluation error: " ++ cause.message
  | parse cause => "Parse error: " ++ cause.message
  | regionNotFound path => "Region not found: " ++ path
  | regionExists path => "Region already exists: " ++ path
  | regionDestroyed path => "Region destroyed: " ++ path
  | entryNotFound key region => "Entry not found: " ++ key.display ++ " in " ++ region
  | noBackingStore key => "Entry not found: " ++ key.display ++ " evicted without a disk store"
  | notInBackingStore key => "Entry not found: " ++ key.display ++ " missing from disk store"
  | badSettings cause => "Invalid argument: " ++ cause.message
  | unreadableSettings => "Serialization error"
  | notPersistent path =>
    "Invalid argument: region " ++ path ++ " is not persistent and cannot be recovered"
  | foreignIndex name target region =>
    "Invalid argument: index '" ++ name ++ "' is defined over " ++ target ++
      " but was created on region " ++ region
  | foreignDefinition name target region =>
    "Invalid argument: definition '" ++ name ++ "' targets " ++ target ++ ", not " ++ region
  | foreignQuery target region =>
    "Invalid argument: query on " ++ target ++ " executed against " ++ region
  | hintedPath index indexed queried =>
    "Invalid argument: index '" ++ index ++ "' is on " ++ indexed ++ ", not " ++ queried
  | overlappingClauses start stop =>
    "Parse error: clause from " ++ toString start ++ " ends at " ++ toString stop
  | improperBounds cause =>
    "Improper bounds: " ++ cause.lower.display ++ " to " ++ cause.upper.display
  | entryLocked key => "Entry locked: " ++ key.display

end Error

end IndexedStore
