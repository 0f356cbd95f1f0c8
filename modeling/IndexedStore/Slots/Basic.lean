import IndexedStore.Comparison
import IndexedStore.Table

/-!
# Slots, postings and look-ups

A slot is one value that an index stores of an entry: a key, or the one undefined slot (`structure::Slot`).
Under each slot stand the postings: entry keys with multiplicities, since an entry can project one slot several
times (`bucket::Bucket`). A look-up is a list of entry keys without repetition (`lookup::IndexLookup`). The keys
of one slot are listed in the order of insertion, for which the `AHashMap` of a `Bucket` has an order of its
own; of that order nothing is said below.
-/

namespace IndexedStore

/-- One projected value of an entry (`structure::Slot`). -/
inductive Slot where
  | defined (value : Key)
  | undefined
deriving Repr, DecidableEq, Inhabited

namespace Slot

/-- `Slot::from_key`. -/
def ofKey? : Option Key → Slot
  | some k => .defined k
  | none => .undefined

def key? : Slot → Option Key
  | .defined k => some k
  | .undefined => none

end Slot

/-- Entry keys with multiplicities, and the sum of the multiplicities (`bucket::Bucket`). -/
structure Postings where
  counts : Table Key Nat
  total : Nat
deriving Repr, Inhabited

namespace Postings

def empty : Postings := ⟨[], 0⟩

/-- How often an entry key stands here. -/
def count (p : Postings) (key : Key) : Nat := (Table.find? key p.counts).getD 0

/-- One more occurrence of an entry key (`Bucket::add`). -/
def add (p : Postings) (key : Key) : Postings :=
  ⟨Table.set key (p.count key + 1) p.counts, p.total + 1⟩

/-- One occurrence less, or `none` when there is none and `Bucket::remove` answers false. -/
def remove? (p : Postings) (key : Key) : Option Postings :=
  match Table.find? key p.counts with
  | none => none
  | some n =>
    let counts := if 1 < n then Table.set key (n - 1) p.counts else Table.erase key p.counts
    some ⟨counts, p.total - 1⟩

def keys (p : Postings) : List Key := Table.keys p.counts

def contains (p : Postings) (key : Key) : Bool := Table.contains key p.counts

def isEmpty (p : Postings) : Bool := p.counts.isEmpty

end Postings

/-- The outcome of a look-up: entry keys without repetition, and whether they stand in the order of
their indexed values (`lookup::IndexLookup`). -/
structure Lookup where
  keys : List Key
  ordered : Bool
deriving Repr, Inhabited

namespace Lookup

/-- The entry keys of several postings, each where it first occurs: what a `KeyCollector` extended by each of
them finishes with. -/
def collect (ordered : Bool) (found : List (List Key)) : Lookup := ⟨found.flatten.eraseDups, ordered⟩

def length (l : Lookup) : Nat := l.keys.length

def contains (l : Lookup) (key : Key) : Bool := l.keys.contains key

end Lookup

end IndexedStore
