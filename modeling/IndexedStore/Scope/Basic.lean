import IndexedStore.Path

/-!
# Scopes

A scope such as `/portfolios p, p.positions.values pos` names a region and the iterators nested over
its values (`expr::FromClause`). The first iterator runs over the region, each later one over the collection
that its locator gives on the elements of the earlier ones. `Scope.shape` is the form that does not depend on
aliases (`FromClause::canonical`), and by it `Scope.coverage?` tells whether an index over one scope can serve
a query over another (`FromClause::match_scope`): the shape of the index's scope has to begin that of the
query's.
-/

namespace IndexedStore

/-- One iterator of a scope; the region's own has no collection. -/
structure ScopeIterator where
  /-- Its alias, by which later paths start at it. -/
  name : Option String
  collection : Option Locator
deriving Repr, DecidableEq, Inhabited

/-- A scope apart from its aliases (`expr::CanonicalScope`). -/
structure ScopeShape where
  regionPath : String
  collections : List Locator
deriving Repr, DecidableEq, Inhabited

namespace ScopeShape

def display (s : ScopeShape) : String :=
  s.regionPath ++ String.join (s.collections.map fun c => ", " ++ c.display)

end ScopeShape

/-- How an index's scope relates to a query's (`expr::ScopeMatch`). -/
inductive Coverage where
  /-- The same iterators. -/
  | exact
  /-- The index's iterators are the first ones of the query's. -/
  | compatible
deriving Repr, DecidableEq

namespace Coverage

def display : Coverage → String
  | .exact => "Exact"
  | .compatible => "Compatible"

/-- Exact before compatible. -/
def rank : Coverage → Nat
  | .exact => 0
  | .compatible => 1

end Coverage

/-- A region and the iterators over it; `text` is how the scope was written, without blanks at its
ends. -/
structure Scope where
  text : String
  regionPath : String
  iterators : List ScopeIterator
deriving Repr, DecidableEq, Inhabited

namespace Scope

/-- The locator of a path among iterators: a first segment that is an alias chooses its iterator, and
any other path starts at the region's (`expr::resolve_in`). -/
def locate (iterators : List ScopeIterator) (segments : List String) : Locator :=
  match segments with
  | [] => ⟨0, []⟩
  | first :: rest =>
    match iterators.findIdx? (·.name == some first) with
    | some i => ⟨i, rest⟩
    | none => ⟨0, first :: rest⟩

/-- The expression of an iterator and its alias, which the word `as` may introduce (`expr::split_alias`). -/
def splitAlias (part : List Char) : Except ParseFault (List Char × Option String) :=
  match Text.words part with
  | [expr] => .ok (expr, none)
  | [expr, name] =>
    if isIdentifier name then .ok (expr, some (String.ofList name))
    else .error (.badIterator (String.ofList part))
  | [expr, word, name] =>
    if Text.sameIgnoringCase word ['a', 's'] ∧ isIdentifier name then
      .ok (expr, some (String.ofList name))
    else .error (.badIterator (String.ofList part))
  | _ => .error (.badIterator (String.ofList part))

/-- A region path with one slash before each of its identifiers (`expr::normalize_region_path`). -/
def regionPathOf (path : List Char) : Except ParseFault String :=
  let name := Text.stripEnds '/' path
  if name.isEmpty ∨ !(Text.cutAt '/' name).all isIdentifier then
    .error (.badRegionPath (String.ofList path))
  else .ok (String.ofList ('/' :: name))

/-- Reads one nested iterator after the given ones: a turn of the loop of `FromClause::parse`. -/
def parseIterator (earlier : List ScopeIterator) (part : List Char) : Except ParseFault ScopeIterator := do
  let (expr, name) ← splitAlias (Text.trim part)
  let path ← Path.parse expr
  match name with
  | some a =>
    if earlier.any (·.name == some a) then throw (.duplicateAlias a)
  | none => pure ()
  return ⟨name, some (locate earlier path.segments)⟩

/-- Reads nested iterators in order, each after those before it. -/
def parseIterators (earlier : List ScopeIterator) :
    List (List Char) → Except ParseFault (List ScopeIterator)
  | [] => .ok earlier
  | part :: rest => do
    let iterator ← parseIterator earlier part
    parseIterators (earlier ++ [iterator]) rest

/-- Reads a scope: a region path with an optional alias, then nested iterators after commas
(`FromClause::parse`). -/
def parse (s : List Char) : Except ParseFault Scope := do
  let text := Text.trim s
  match Text.cutAt ',' text with
  | [] => throw .emptyScope
  | head :: parts =>
    let head := Text.trim head
    if head.isEmpty then throw .emptyScope
    let (region, name) ← splitAlias head
    let regionPath ← regionPathOf region
    let iterators ← parseIterators [⟨name, none⟩] parts
    return ⟨String.ofList text, regionPath, iterators⟩

/-- The locator of a path in this scope (`FromClause::resolve`). -/
def resolve (s : Scope) (path : Path) : Locator := locate s.iterators path.segments

/-- The form of this scope that does not depend on aliases (`FromClause::canonical`). -/
def shape (s : Scope) : ScopeShape := ⟨s.regionPath, s.iterators.filterMap (·.collection)⟩

/-- Whether an index over `index` can serve a query over `query`, and how closely (`FromClause::match_scope`). An
index with more iterators than the query misses entries whose nested collections are empty. -/
def coverage? (index query : Scope) : Option Coverage :=
  let ours := index.shape
  let theirs := query.shape
  if ours.regionPath = theirs.regionPath ∧ ours.collections.isPrefixOf theirs.collections then
    some (if ours.collections.length = theirs.collections.length then .exact else .compatible)
  else none

end Scope

end IndexedStore
