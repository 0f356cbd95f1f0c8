import IndexedStore.Value.Basic
import IndexedStore.Text.Blank

/-!
# Paths

A path such as `p.positions.values` is a dotted list of identifiers (`expr::PathExpr`). Resolved in a scope it
becomes a `Locator` (`expr::ResolvedPath`): the position of an iterator and the fields to read from that
iterator's current element.

Reading a field that a map lacks gives undefined, save that `values`, `keys` and `keySet` give the
map's own values and names; reading through null or undefined gives undefined; reading a field of any
other value is a fault.
-/

namespace IndexedStore

/-- Why a text is not a path, a scope, a predicate or a query: one for each text that the parsers give a
`StorageError::Parse`. -/
inductive ParseFault where
  | emptyPath
  | badIdentifier (segment path : String)
  | emptyScope
  | badIterator (part : String)
  | badRegionPath (path : String)
  | duplicateAlias (name : String)
  | badPredicate (text : String)
  | noOperator (text : String)
  | unknownOperator (symbol : String)
  | badLiteral (text : String)
  | missingFrom (text : String)
  | clauseOrder (text : String)
deriving Repr, DecidableEq

namespace ParseFault

def message : ParseFault → String
  | emptyPath => "empty path expression"
  | badIdentifier segment path => "invalid identifier '" ++ segment ++ "' in path '" ++ path ++ "'"
  | emptyScope => "empty from clause"
  | badIterator part => "cannot parse iterator '" ++ part ++ "'"
  | badRegionPath path => "invalid region path '" ++ path ++ "'"
  | duplicateAlias name => "duplicate alias '" ++ name ++ "'"
  | badPredicate text => "cannot parse predicate '" ++ text ++ "'"
  | noOperator text => "no comparison operator in '" ++ text ++ "'"
  | unknownOperator symbol => "unknown operator '" ++ symbol ++ "'"
  | badLiteral text => "cannot parse literal '" ++ text ++ "'"
  | missingFrom text => "missing FROM in '" ++ text ++ "'"
  | clauseOrder text => "expected FROM, WHERE, ORDER BY in that order in '" ++ text ++ "'"

end ParseFault

/-- An ASCII letter or underscore. -/
def isIdentifierStart (c : Char) : Bool := c.isAlpha || c == '_'

/-- An ASCII letter or underscore, then letters, digits and underscores (`expr::is_identifier`). -/
def isIdentifier : List Char → Bool
  | [] => false
  | c :: rest => isIdentifierStart c && rest.all fun d => isIdentifierStart d || d.isDigit

/-- A dotted path; `text` is how it was written, without blanks at its ends. -/
structure Path where
  text : String
  segments : List String
deriving Repr, DecidableEq, Inhabited

namespace Path

/-- Reads a path; blanks around the dots are allowed (`PathExpr::parse`). -/
def parse (s : List Char) : Except ParseFault Path :=
  let text := Text.trim s
  if text.isEmpty then .error .emptyPath
  else
    let segments := (Text.cutAt '.' text).map Text.trim
    match segments.find? fun segment => !isIdentifier segment with
    | some segment => .error (.badIdentifier (String.ofList segment) (String.ofList text))
    | none => .ok ⟨String.ofList text, segments.map String.ofList⟩

end Path

/-- A path rooted at an iterator of a scope. -/
structure Locator where
  iterator : Nat
  fields : List String
deriving Repr, DecidableEq, Inhabited

namespace Locator

def display (l : Locator) : String :=
  "$" ++ toString l.iterator ++ String.join (l.fields.map ("." ++ ·))

end Locator

namespace Value

/-- What reading one field gives (`expr::step`). -/
def readField (field : String) : Value → Except EvaluationFault Value
  | .map fields =>
    match lookupField field fields with
    | some v => .ok v
    | none =>
      if field = "values" then .ok (.list (fields.map (·.2)))
      else if field = "keys" ∨ field = "keySet" then .ok (.list (fields.map fun f => .text f.1))
      else .ok .undefined
  | .null | .undefined => .ok .undefined
  | v => .error (.fieldOf field v.typeName)

/-- What reading fields one after another gives (`expr::navigate`). -/
def navigate (root : Value) : List String → Except EvaluationFault Value
  | [] => .ok root
  | field :: rest =>
    match root.readField field with
    | .ok v => v.navigate rest
    | .error fault => .error fault

/-- The elements that iterating over a value visits (`expr::collection_items`). -/
def elements : Value → Except EvaluationFault (List Value)
  | .list items => .ok items
  | .map fields => .ok (fields.map (·.2))
  | .null | .undefined => .ok []
  | v => .error (.notIterable v.typeName)

end Value

namespace Locator

/-- What a locator gives on a tuple of current elements, one for each iterator (`ResolvedPath::eval`). -/
def eval (l : Locator) (tuple : List Value) : Except EvaluationFault Value :=
  match tuple[l.iterator]? with
  | some root => root.navigate l.fields
  | none => .error (.unboundIterator l.iterator)

end Locator

end IndexedStore
