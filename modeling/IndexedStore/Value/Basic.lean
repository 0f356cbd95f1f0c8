import IndexedStore.Binary64.Decimal
import IndexedStore.Text.Search

/-!
# Entry values

What a region stores under a key (`types::Value`): scalars, ordered collections, and maps from field names
to values. A map keeps its fields in the order of their names by code point, as the `BTreeMap` of a
`Value::Map` does; `Value.object` establishes it.

`Value.same` is equality as a program compares values: numbers of the two kinds never agree, `-0`
agrees with `0`, and a NaN agrees with nothing, itself included.
-/

namespace IndexedStore

/-- The 64-bit integer of a given value, where there is one. -/
def word? (i : Int) : Option Int64 :=
  if Int64.minValue.toInt ≤ i ∧ i ≤ Int64.maxValue.toInt then some (Int64.ofInt i) else none

/-- A value of a region entry. -/
inductive Value where
  /-- An explicit null. -/
  | null
  /-- What reading a field that is not there gives. -/
  | undefined
  | bool (b : Bool)
  | integer (i : Int64)
  | float (x : Binary64)
  | text (s : String)
  | list (items : List Value)
  | map (fields : List (String × Value))
deriving Repr, Inhabited

/-- Why evaluating a path, or making a key of what it gives, can fail: the `StorageError::Evaluation`s of
`Key::try_from_value`, `expr::step`, `expr::collection_items`, `ResolvedPath::eval` and `FromClause::walk`. -/
inductive EvaluationFault where
  /-- A list that is to become a key has a null or undefined element. -/
  | nullInComposite
  /-- A map is to become a key. -/
  | mapAsKey
  /-- A field is read of a value that has no fields. -/
  | fieldOf (field typeName : String)
  /-- A value that is no collection is iterated over. -/
  | notIterable (typeName : String)
  /-- A path starts at an iterator the tuple does not reach. -/
  | unboundIterator (position : Nat)
  /-- A later iterator of a scope has no collection. -/
  | nestedRegionIterator
deriving Repr, DecidableEq

namespace EvaluationFault

def message : EvaluationFault → String
  | nullInComposite => "null element inside a composite value"
  | mapAsKey => "map values cannot be used as index keys"
  | fieldOf field typeName => "cannot read field '" ++ field ++ "' of a " ++ typeName ++ " value"
  | notIterable typeName => "cannot iterate over a " ++ typeName ++ " value"
  | unboundIterator position => "iterator " ++ toString position ++ " is not bound"
  | nestedRegionIterator => "nested region iterator"

end EvaluationFault

namespace Value

/-- A field put at its place in a list of fields sorted by name, in place of one of the same name. -/
def insertField (name : String) (value : Value) : List (String × Value) → List (String × Value)
  | [] => [(name, value)]
  | (n, v) :: rest =>
    if name < n then (name, value) :: (n, v) :: rest
    else if name = n then (name, value) :: rest
    else (n, v) :: insertField name value rest

/-- A map with the given fields; of two with one name the later counts (`Value::object`). -/
def object (fields : List (String × Value)) : Value :=
  .map (fields.foldl (fun sorted (name, value) => insertField name value sorted) [])

/-- The value of a name in a list of fields. -/
def lookupField (name : String) : List (String × Value) → Option Value
  | [] => none
  | (n, v) :: rest => if n = name then some v else lookupField name rest

/-- A field of a map; other values have none (`Value::field`). -/
def field? (name : String) : Value → Option Value
  | .map fields => lookupField name fields
  | _ => none

/-- Null and undefined, which ordinary comparisons never match (`Value::is_undefined`). -/
def isUndefined : Value → Bool
  | .null | .undefined => true
  | _ => false

/-- `Value::type_name`, as faults name a value. -/
def typeName : Value → String
  | .null => "null"
  | .undefined => "undefined"
  | .bool _ => "bool"
  | .integer _ => "integer"
  | .float _ => "float"
  | .text _ => "text"
  | .list _ => "list"
  | .map _ => "map"

mutual

/-- The text of a value, by `Value`'s `Display`: texts stand in single quotes as they are, lists in square
brackets, maps in braces. -/
def display : Value → String
  | .null => "NULL"
  | .undefined => "UNDEFINED"
  | .bool b => if b then "true" else "false"
  | .integer i => toString i.toInt
  | .float x => x.shortest
  | .text s => "'" ++ s ++ "'"
  | .list items => "[" ++ Text.joinWith ", " (displayItems items) ++ "]"
  | .map fields => "\x7b" ++ Text.joinWith ", " (displayFields fields) ++ "\x7d"

def displayItems : List Value → List String
  | [] => []
  | v :: rest => display v :: displayItems rest

def displayFields : List (String × Value) → List String
  | [] => []
  | (name, v) :: rest => (name ++ ": " ++ display v) :: displayFields rest

end

mutual

/-- Equality as a program compares values: the derived `PartialEq` of `Value`. -/
def same : Value → Value → Bool
  | .null, .null => true
  | .undefined, .undefined => true
  | .bool a, .bool b => a == b
  | .integer a, .integer b => a == b
  | .float a, .float b => a.same b
  | .text a, .text b => a == b
  | .list a, .list b => sameItems a b
  | .map a, .map b => sameFields a b
  | _, _ => false

def sameItems : List Value → List Value → Bool
  | [], [] => true
  | a :: as, b :: bs => same a b && sameItems as bs
  | _, _ => false

def sameFields : List (String × Value) → List (String × Value) → Bool
  | [], [] => true
  | (m, a) :: as, (n, b) :: bs => m == n && same a b && sameFields as bs
  | _, _ => false

end

mutual

/-- The bytes a value takes in a backing store, encoded as `DiskStore::write` encodes it: four for its kind,
eight for a number or a length, one for a truth value, and the UTF-8 bytes of its texts. -/
def encodedSize : Value → Nat
  | .null | .undefined => 4
  | .bool _ => 5
  | .integer _ | .float _ => 12
  | .text s => 12 + s.utf8ByteSize
  | .list items => 12 + encodedSizeItems items
  | .map fields => 12 + encodedSizeFields fields

def encodedSizeItems : List Value → Nat
  | [] => 0
  | v :: rest => encodedSize v + encodedSizeItems rest

def encodedSizeFields : List (String × Value) → Nat
  | [] => 0
  | (name, v) :: rest => 8 + name.utf8ByteSize + encodedSize v + encodedSizeFields rest

end

end Value

end IndexedStore
