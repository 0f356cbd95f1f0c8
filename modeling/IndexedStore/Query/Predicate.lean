import IndexedStore.Comparison
import IndexedStore.Scope.Tuples

/-!
# Predicates

A predicate (`query::Predicate`) compares what a path gives with a value: `path op literal`,
`path IS [NOT] UNDEFINED`, `path IS [NOT] NULL` or `path IS DEFINED`. A literal is a text in single quotes, with
a quote inside written twice, a number, `true`, `false`, `NULL` or `UNDEFINED`.
-/

namespace IndexedStore

structure Predicate where
  path : Path
  comparison : Comparison
  value : Value
deriving Repr, Inhabited

namespace Predicate

/-- The predicate of a comparison of the path that a text writes (`Predicate::new`). -/
def make (path : List Char) (comparison : Comparison) (value : Value) : Except ParseFault Predicate :=
  (Path.parse path).map fun p => ⟨p, comparison, value⟩

/-- The predicate that a path gives null or undefined (`Predicate::is_undefined`). -/
def undefinedAt (path : List Char) : Except ParseFault Predicate := make path .isUndefined .null

/-- The integer that a literal writes: an optional sign and digits, within 64 bits. -/
def integerLiteral? (text : List Char) : Option Int64 :=
  let (negative, ds) := match text with
    | '-' :: rest => (true, rest)
    | '+' :: rest => (false, rest)
    | rest => (false, rest)
  if ds.isEmpty ∨ !ds.all Char.isDigit then none
  else
    let n : Int := Binary64.digitsValue ds
    word? (if negative then -n else n)

/-- The text between single quotes that begin and end a literal. -/
def quotedLiteral? (text : List Char) : Option (List Char) :=
  match text with
  | '\'' :: rest =>
    match rest.getLast? with
    | some '\'' => some (Text.undoubleQuotes rest.dropLast)
    | _ => none
  | _ => none

/-- The value that a literal writes (`query::parse_literal`). -/
def parseLiteral (text : List Char) : Except ParseFault Value :=
  match quotedLiteral? text with
  | some inner => .ok (.text (String.ofList inner))
  | none =>
    let name := String.ofList (Text.lower text)
    if name = "null" then .ok .null
    else if name = "undefined" then .ok .undefined
    else if name = "true" then .ok (.bool true)
    else if name = "false" then .ok (.bool false)
    else match integerLiteral? text with
      | some i => .ok (.integer i)
      | none =>
        match Binary64.ofLiteral? text with
        | some x => .ok (.float x)
        | none => .error (.badLiteral (String.ofList text))

/-- A character of which comparison symbols are made. -/
def isSymbolChar (c : Char) : Bool := c == '<' || c == '>' || c == '=' || c == '!'

/-- The predicate that the words after `IS` make of a path: the first branch of `Predicate::parse`. -/
def parseIs (text path : List Char) (rest : List (List Char)) : Except ParseFault Predicate :=
  let rest := rest.map fun word => String.ofList (Text.upper word)
  if rest = ["UNDEFINED"] ∨ rest = ["NULL"] then undefinedAt path
  else if rest = ["DEFINED"] ∨ rest = ["NOT", "UNDEFINED"] ∨ rest = ["NOT", "NULL"] then
    make path .ne .null
  else .error (.badPredicate (String.ofList text))

/-- The predicate of a text with a comparison symbol, the first run of symbol characters: the other branch of
`Predicate::parse`. -/
def parseComparison (text : List Char) : Except ParseFault Predicate :=
  let path := text.takeWhile fun c => !isSymbolChar c
  let rest := text.dropWhile fun c => !isSymbolChar c
  let symbol := String.ofList (rest.takeWhile isSymbolChar)
  if rest.isEmpty then .error (.noOperator (String.ofList text))
  else match Comparison.ofSymbol? symbol with
    | none => .error (.unknownOperator symbol)
    | some comparison =>
      match parseLiteral (Text.trim (rest.dropWhile isSymbolChar)) with
      | .error fault => .error fault
      | .ok value => make path comparison value

/-- Reads a predicate (`Predicate::parse`). -/
def parse (s : List Char) : Except ParseFault Predicate :=
  let text := Text.trim s
  match Text.words text with
  | path :: word :: next :: rest =>
    if Text.sameIgnoringCase word ['i', 's'] then parseIs text path (next :: rest)
    else parseComparison text
  | _ => parseComparison text

/-- The key that an index look-up is made with; none for null and undefined (`Predicate::probe`). -/
def probe (p : Predicate) : Except EvaluationFault (Option Key) := Key.ofValue p.value

/-- Whether a tuple satisfies the predicate, whose path has the given locator and whose value has the
given key (`Predicate::matches`). What cannot be evaluated satisfies nothing. -/
def holds (p : Predicate) (locator : Locator) (probe : Option Key) (tuple : List Value) : Bool :=
  match locator.eval tuple with
  | .error _ => false
  | .ok v =>
    match Key.ofValue v with
    | .error _ => false
    | .ok candidate => p.comparison.holds candidate probe

/-- The text of a predicate, by `Predicate`'s `Display`. -/
def display (p : Predicate) : String :=
  match p.comparison with
  | .isUndefined => p.path.text ++ " IS UNDEFINED"
  | op => p.path.text ++ " " ++ op.symbol ++ " " ++ p.value.display

end Predicate

end IndexedStore
