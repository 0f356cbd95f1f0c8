import IndexedStore.Key.Basic

/-!
# Keys of values

`Key.ofValue` makes the key of an evaluated value, as `Key::try_from_value` does. Null and undefined give no
key; a map, or a null or undefined inside a list, is a fault. `Key.toValue` gives the value that a key is the
key of, as `Key::to_value` does.
-/

namespace IndexedStore

namespace Key

mutual

/-- The key of a value, `none` for null and undefined (`Key::try_from_value`). -/
def ofValue : Value → Except EvaluationFault (Option Key)
  | .null | .undefined => .ok none
  | .bool b => .ok (some (.bool b))
  | .integer i => .ok (some (.int i))
  | .float x => .ok (some (ofFloat x))
  | .text s => .ok (some (.text s))
  | .list items => (ofItems items).map fun parts => some (.composite parts)
  | .map _ => .error .mapAsKey

/-- The keys of the elements of a list, up to the first that has none: the arm of `Key::try_from_value` for a
list. -/
def ofItems : List Value → Except EvaluationFault (List Key)
  | [] => .ok []
  | v :: rest =>
    match ofValue v with
    | .error fault => .error fault
    | .ok none => .error .nullInComposite
    | .ok (some k) => (ofItems rest).map (k :: ·)

end

mutual

/-- The value that a key is the key of (`Key::to_value`). -/
def toValue : Key → Value
  | .bool b => .bool b
  | .int i => .integer i
  | .float x => .float x
  | .text s => .text s
  | .composite parts => .list (toValues parts)

def toValues : List Key → List Value
  | [] => []
  | k :: rest => toValue k :: toValues rest

end

end Key

end IndexedStore
