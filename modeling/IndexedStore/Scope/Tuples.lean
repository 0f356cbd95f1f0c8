import IndexedStore.Scope.Basic

/-!
# Tuples of a scope

Iterating a scope over one region value visits tuples: the region value first, then the current
element of each nested iterator. `Scope.tuples` gives the tuples in the order in which
`FromClause::for_each_tuple` visits them and the fault that ended the visit, if a collection could not be
evaluated.
-/

namespace IndexedStore

/-- The tuples visited, and what ended the visit early. -/
structure Visit where
  tuples : List (List Value)
  fault : Option EvaluationFault
deriving Repr, Inhabited

namespace Visit

/-- A visit that fails at once. -/
def failed (fault : EvaluationFault) : Visit := ⟨[], some fault⟩

/-- One visit after another; a fault in the first ends both. -/
def append (a b : Visit) : Visit :=
  match a.fault with
  | some _ => a
  | none => ⟨a.tuples ++ b.tuples, b.fault⟩

/-- Visits one after another, up to the first fault. -/
def concat : List Visit → Visit
  | [] => ⟨[], none⟩
  | v :: rest => v.append (concat rest)

end Visit

namespace Scope

/-- The elements of a nested iterator after the elements of the earlier ones: what one call of
`FromClause::walk` iterates over. -/
def elementsOf (it : ScopeIterator) (tuple : List Value) : Except EvaluationFault (List Value) :=
  match it.collection with
  | none => .error .nestedRegionIterator
  | some collection =>
    match collection.eval tuple with
    | .ok v => v.elements
    | .error fault => .error fault

/-- The visit of nested iterators, begun with the elements of the earlier ones (`FromClause::walk`). -/
def tuplesFrom : List ScopeIterator → List Value → Visit
  | [], tuple => ⟨[tuple], none⟩
  | it :: rest, tuple =>
    match elementsOf it tuple with
    | .ok items => .concat (items.map fun item => tuplesFrom rest (tuple ++ [item]))
    | .error fault => .failed fault

/-- The visit of a scope over one region value (`FromClause::for_each_tuple`). -/
def tuples (s : Scope) (v : Value) : Visit := tuplesFrom s.iterators.tail [v]

end Scope

end IndexedStore
