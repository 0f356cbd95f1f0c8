import IndexedStore.Query.Execution

/-!
# Recorders

A recorder (`observer::RecordingObserver`) keeps the index look-ups it is told of, of one region or of all. A
look-up is kept when it has come to its end, with the comparison that it began with: that of the latest look-up
still open on the index.
-/

namespace IndexedStore

/-- `observer::LookupRecord`. -/
structure LookupRecord where
  region : String
  index : String
  comparison : Comparison
  results : Nat
deriving Repr, DecidableEq

structure Recorder where
  /-- The region whose look-ups are kept; all are when it is missing. -/
  only : Option String
  records : List LookupRecord
  /-- The look-ups that have not come to their end, oldest first. -/
  opened : List (String × Comparison)
deriving Repr, Inhabited

namespace Recorder

def new (only : Option String) : Recorder := ⟨only, [], []⟩

def wants (r : Recorder) (ix : Index) : Bool := r.only.all (· == ix.compiled.regionPath)

/-- The recorder after a look-up has begun (`RecordingObserver::before_index_lookup`). -/
def began (r : Recorder) (ix : Index) (op : Comparison) : Recorder :=
  if r.wants ix then { r with opened := r.opened ++ [(ix.name, op)] } else r

/-- The comparison of the latest open look-up on an index, and the open ones without it. The list is
given latest first, which is how `rposition` goes through it. -/
def takeLatest (name : String) :
    List (String × Comparison) → Option (Comparison × List (String × Comparison))
  | [] => none
  | (n, op) :: rest =>
    if n = name then some (op, rest)
    else (takeLatest name rest).map fun (found, left) => (found, (n, op) :: left)

/-- The recorder after a look-up has come to its end (`RecordingObserver::after_index_lookup`). -/
def finished (r : Recorder) (ix : Index) (found : Lookup) : Recorder :=
  if r.wants ix then
    match takeLatest ix.name r.opened.reverse with
    | none => r
    | some (op, left) => { r with
        opened := left.reverse
        records := r.records ++ [⟨ix.compiled.regionPath, ix.name, op, found.length⟩] }
  else r

/-- The names of the indexes looked up, in order (`RecordingObserver::indexes_used`). -/
def indexesUsed (r : Recorder) : List String := r.records.map (·.index)

def cleared (r : Recorder) : Recorder := { r with records := [] }

end Recorder

end IndexedStore
