import IndexedStore.Error
import IndexedStore.Query.Predicate

/-!
# Queries

A query (`query::Query`) selects the tuples of a scope, of which a predicate may hold, in an order that a path
may give: `SELECT * FROM scope [WHERE predicate] [ORDER BY path]`. The keywords are looked for anywhere in the
text, the first occurrence of each counting, in any case.
-/

namespace IndexedStore

structure Query where
  scope : Scope
  predicate : Option Predicate
  order : Option Path
  /-- The index that has to be used. -/
  hint : Option String
deriving Repr, Inhabited

namespace Query

/-- All tuples of a scope (`Query::select`). -/
def select (scope : List Char) : Except ParseFault Query :=
  (Scope.parse scope).map fun s => ⟨s, none, none, none⟩

def filter (q : Query) (p : Predicate) : Query := { q with predicate := some p }

def orderBy (q : Query) (path : List Char) : Except ParseFault Query :=
  (Path.parse path).map fun p => { q with order := some p }

def useIndex (q : Query) (name : String) : Query := { q with hint := some name }

/-- The part of a text between two positions, which must not be reversed: a slice of `Query::parse`, which panics
where they are. -/
def part (text : List Char) (start stop : Nat) : Except Error (List Char) :=
  if stop < start then .error (.overlappingClauses start stop) else .ok ((text.take stop).drop start)

/-- Where the clauses of a query begin. -/
structure Clauses where
  fromAt : Nat
  whereAt : Option Nat
  orderAt : Option Nat
deriving Repr, DecidableEq

/-- The clauses of a text, which must come in their order: `Query::parse` up to its check `misplaced`. -/
def clauses (text : List Char) : Except ParseFault Clauses :=
  let upper := Text.upper text
  match Text.find? ['F', 'R', 'O', 'M', ' '] upper with
  | none => .error (.missingFrom (String.ofList text))
  | some fromAt =>
    let whereAt := Text.find? [' ', 'W', 'H', 'E', 'R', 'E', ' '] upper
    let orderAt := Text.find? [' ', 'O', 'R', 'D', 'E', 'R', ' ', 'B', 'Y', ' '] upper
    let scopeEnd := (whereAt.or orderAt).getD text.length
    let swapped : Bool := match whereAt, orderAt with
      | some w, some o => decide (o < w)
      | _, _ => false
    if scopeEnd < fromAt + 5 ∨ swapped then .error (.clauseOrder (String.ofList text))
    else .ok ⟨fromAt, whereAt, orderAt⟩

def ofFault {α : Type} : Except ParseFault α → Except Error α
  | .ok a => .ok a
  | .error fault => .error (.parse fault)

/-- Reads a query (`Query::parse`). -/
def parse (text : List Char) : Except Error Query := do
  let c ← ofFault (clauses text)
  let scope ← part text (c.fromAt + 5) ((c.whereAt.or c.orderAt).getD text.length)
  let q ← ofFault (select scope)
  let q ← match c.whereAt with
    | none => pure q
    | some w => do
      let predicate ← part text (w + 7) (c.orderAt.getD text.length)
      let p ← ofFault (Predicate.parse predicate)
      pure (q.filter p)
  match c.orderAt with
  | none => pure q
  | some o => do
    let order ← part text (o + 10) text.length
    ofFault (q.orderBy order)

/-- Whether the order is by the predicate's own path, so that an ordered index serves both
(`Query::orders_by_predicate`). -/
def ordersByPredicate (q : Query) : Bool :=
  match q.order, q.predicate with
  | some order, some p => q.scope.resolve order = q.scope.resolve p.path
  | _, _ => false

/-- The text of a query, by `Query`'s `Display`. -/
def display (q : Query) : String :=
  "SELECT * FROM " ++ q.scope.text ++
    (match q.predicate with
      | some p => " WHERE " ++ p.display
      | none => "") ++
    (match q.order with
      | some o => " ORDER BY " ++ o.text
      | none => "")

end Query

end IndexedStore
