import IndexedStore.Json.Token

/-!
# JSON values

`JsonValue.ofText?` reads a JSON text, as `serde_json::from_str` does for `RegionConfig::from_json`. The fields
of an object are kept as they are written, repeats included, since whether a repeat is an error is for the
reader of the object to say.
-/

namespace IndexedStore

inductive JsonValue where
  | null
  | bool (b : Bool)
  /-- A number, with its value when it is written as a natural number. -/
  | number (natural : Option Nat)
  | string (text : Option String)
  | array (items : List JsonValue)
  | object (fields : List (Option String × JsonValue))
deriving Repr, Inhabited

namespace JsonValue

/-- An array or object that is still open; what has been read of it is kept reversed. -/
inductive Frame where
  | array (items : List JsonValue)
  | object (fields : List (Option String × JsonValue)) (name : Option String)

/-- What may come next. -/
inductive Expected where
  | value
  | valueOrEnd
  | name
  | nameOrEnd
  | colon
  | commaOrEnd

/-- A finished value put into the innermost open array or object. -/
def close (v : JsonValue) : List Frame → List Frame
  | .array items :: rest => .array (v :: items) :: rest
  | .object fields name :: rest => .object ((name, v) :: fields) name :: rest
  | [] => []

/-- The value that the tokens make, begun with `stack` open and, when nothing is open any more, with
`whole` read. -/
def build (expected : Expected) (stack : List Frame) (whole : Option JsonValue) :
    List JsonToken → Option JsonValue
  | [] => if stack.isEmpty then whole else none
  | token :: rest =>
    let finish (v : JsonValue) (stack : List Frame) : Option JsonValue :=
      if stack.isEmpty then build .commaOrEnd [] (some v) rest
      else build .commaOrEnd (close v stack) whole rest
    let start : Option JsonValue :=
      match token with
      | .openBracket => build .valueOrEnd (.array [] :: stack) whole rest
      | .openBrace => build .nameOrEnd (.object [] none :: stack) whole rest
      | .null => finish .null stack
      | .bool b => finish (.bool b) stack
      | .number n => finish (.number n) stack
      | .string s => finish (.string s) stack
      | .closeBrace | .closeBracket | .colon | .comma => none
    match expected, token, stack with
    | .value, _, _ => start
    | .valueOrEnd, .closeBracket, .array items :: outer => finish (.array items.reverse) outer
    | .valueOrEnd, _, _ => start
    | .nameOrEnd, .closeBrace, .object fields _ :: outer => finish (.object fields.reverse) outer
    | .nameOrEnd, .string s, .object fields _ :: outer =>
      build .colon (.object fields s :: outer) whole rest
    | .name, .string s, .object fields _ :: outer => build .colon (.object fields s :: outer) whole rest
    | .colon, .colon, _ => build .value stack whole rest
    | .commaOrEnd, .comma, .array _ :: _ => build .value stack whole rest
    | .commaOrEnd, .comma, .object _ _ :: _ => build .name stack whole rest
    | .commaOrEnd, .closeBracket, .array items :: outer => finish (.array items.reverse) outer
    | .commaOrEnd, .closeBrace, .object fields _ :: outer => finish (.object fields.reverse) outer
    | _, _, _ => none

/-- Reads a JSON text. -/
def ofText? (text : String) : Option JsonValue :=
  (JsonToken.ofText? text).bind (build .value [] none)

/-- A natural number of at most 64 bits. -/
def toWord? : JsonValue → Option Nat
  | .number (some n) => if n < UInt64.size then some n else none
  | _ => none

def toBool? : JsonValue → Option Bool
  | .bool b => some b
  | _ => none

/-- The values of one name in an object. -/
def valuesOf (name : String) (fields : List (Option String × JsonValue)) : List JsonValue :=
  (fields.filter fun (n, _) => n == some name).map (·.2)

/-- A record with the given field names: an object in which each of the names stands at most once and
other names are passed over, or an array of exactly the fields in order. The answer has a place for each
field, empty where the object lacks it. -/
def toRecord? (names : List String) : JsonValue → Option (List (Option JsonValue))
  | .object fields =>
    if fields.any (·.1.isNone) then none
    else names.mapM fun name =>
      match valuesOf name fields with
      | [] => some none
      | [v] => some (some v)
      | _ :: _ :: _ => none
  | .array items => if items.length = names.length then some (items.map some) else none
  | _ => none

/-- A choice among named cases: the name alone, or an object whose one field is the case and its
content. -/
def toCase? : JsonValue → Option (String × Option JsonValue)
  | .string (some name) => some (name, none)
  | .object [(some name, content)] => some (name, some content)
  | _ => none

end JsonValue

end IndexedStore
