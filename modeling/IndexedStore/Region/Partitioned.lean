import IndexedStore.Key.Basic
import IndexedStore.Table

/-!
# Partitioned tables

A table whose keys are spread over buckets by a hash function. A key is looked for in its own bucket
only, and only put there. These are the `buckets` of a `LocalRegion`, each a `DashMap`, with the
`RandomState` that `LocalRegion::bucket` takes a key's bucket from. Both the hash function and the order in
which a `DashMap` is iterated are drawn at random, so both are parameters here.
-/

namespace IndexedStore

/-- The order in which the keys of a table are listed, which hash maps leave open: a table lists `keys` as
`order n keys` after `n` changes, so that it can be another order after every change. -/
structure Listing where
  order : Nat → List Key → List Key
  perm : ∀ n keys, (order n keys).Perm keys

namespace Listing

/-- Keys listed as they are stored. -/
def stored : Listing := ⟨fun _ keys => keys, fun _ _ => .refl _⟩

instance : Inhabited Listing := ⟨stored⟩

end Listing

structure Partitioned (α : Type) where
  hasher : Hasher
  listing : Listing
  buckets : List (Table Key α)
  /-- The number of changes so far. -/
  changes : Nat
deriving Inhabited

namespace Partitioned

variable {α : Type}

def empty (hasher : Hasher) (listing : Listing) (buckets : Nat) : Partitioned α where
  hasher := hasher
  listing := listing
  buckets := List.replicate buckets []
  changes := 0

/-- The bucket of a key (`LocalRegion::bucket`). -/
def place (p : Partitioned α) (key : Key) : Nat := (p.hasher.key key).toNat % p.buckets.length

def find? (p : Partitioned α) (key : Key) : Option α :=
  (p.buckets[p.place key]?).bind (Table.find? key)

/-- A change to the bucket of a key. -/
def change (p : Partitioned α) (key : Key) (f : Table Key α → Table Key α) : Partitioned α :=
  { p with buckets := p.buckets.modify (p.place key) f, changes := p.changes + 1 }

def set (p : Partitioned α) (key : Key) (value : α) : Partitioned α := p.change key (Table.set key value)

def erase (p : Partitioned α) (key : Key) : Partitioned α := p.change key (Table.erase key)

/-- The same buckets with nothing in them. -/
def cleared (p : Partitioned α) : Partitioned α :=
  { p with buckets := p.buckets.map fun _ => [], changes := p.changes + 1 }

/-- All pairs as they are stored, bucket by bucket. -/
def toTable (p : Partitioned α) : Table Key α := p.buckets.flatten

/-- All keys in the order of listing. -/
def keys (p : Partitioned α) : List Key := p.listing.order p.changes (Table.keys p.toTable)

def size (p : Partitioned α) : Nat := p.toTable.length

end Partitioned

end IndexedStore
