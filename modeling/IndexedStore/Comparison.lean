import IndexedStore.Key.Conversion

/-!
# Comparisons and kinds of index

`Comparison.holds` says when an indexed value satisfies a comparison with a probe, as `Operator::matches` does,
where `none` stands for null and undefined on either side. Comparisons of order, and equality, never cross key
classes; an undefined value satisfies `isUndefined` alone; and `ne` with no probe holds of every defined value.
-/

namespace IndexedStore

/-- `index::Operator`. -/
inductive Comparison where
  | eq
  | ne
  | lt
  | le
  | gt
  | ge
  /-- Holds of null and undefined. -/
  | isUndefined
deriving Repr, DecidableEq, Inhabited

namespace Comparison

/-- `Operator::symbol`. -/
def symbol : Comparison → String
  | .eq => "="
  | .ne => "!="
  | .lt => "<"
  | .le => "<="
  | .gt => ">"
  | .ge => ">="
  | .isUndefined => "IS UNDEFINED"

/-- The comparison that a symbol writes (`Operator::from_symbol`). -/
def ofSymbol? (s : String) : Option Comparison :=
  if s = "=" ∨ s = "==" then some .eq
  else if s = "!=" ∨ s = "<>" then some .ne
  else if s = "<" then some .lt
  else if s = "<=" then some .le
  else if s = ">" then some .gt
  else if s = ">=" then some .ge
  else none

/-- A comparison that needs its values in order (`Operator::is_inequality`). -/
def isInequality : Comparison → Bool
  | .lt | .le | .gt | .ge => true
  | _ => false

/-- How keys of one class compare. -/
def compareKeys : Comparison → Key → Key → Bool
  | .eq, c, p => c == p
  | .lt, c, p => c.before p
  | .le, c, p => c.upTo p
  | .gt, c, p => p.before c
  | .ge, c, p => p.upTo c
  | .ne, _, _ | .isUndefined, _, _ => false

/-- Whether an indexed value satisfies the comparison with a probe (`Operator::matches`). -/
def holds (op : Comparison) (candidate probe : Option Key) : Bool :=
  match op with
  | .isUndefined => candidate.isNone
  | .ne =>
    match candidate, probe with
    | none, _ => false
    | some _, none => true
    | some c, some p => c != p
  | _ =>
    match candidate, probe with
    | some c, some p => c.keyClass == p.keyClass && op.compareKeys c p
    | _, _ => false

end Comparison

/-- The kinds of index: ordered by value, spread by hash, or with one entry for each value. -/
inductive IndexKind where
  | range
  | hash
  | primaryKey
deriving Repr, DecidableEq, Inhabited

namespace IndexKind

def name : IndexKind → String
  | .range => "range"
  | .hash => "hash"
  | .primaryKey => "primary-key"

/-- The name of the kind where an index is shown with its fields, in `Index`'s `Debug`. -/
def title : IndexKind → String
  | .range => "Range"
  | .hash => "Hash"
  | .primaryKey => "PrimaryKey"

/-- Whether an index of this kind can answer a comparison (`IndexKind::supports`). -/
def supports (kind : IndexKind) (op : Comparison) : Bool :=
  match kind with
  | .range => true
  | .hash | .primaryKey => !op.isInequality

/-- Whether look-ups come back in the order of the indexed values (`IndexKind::is_ordered`). -/
def isOrdered : IndexKind → Bool
  | .range => true
  | .hash | .primaryKey => false

end IndexKind

end IndexedStore
