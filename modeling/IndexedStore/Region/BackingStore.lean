import IndexedStore.Key.Basic
import IndexedStore.Table

/-!
# Backing stores

Where a region keeps evicted and persistent values (`disk_store::DiskStore`). A backing store outlives the
regions that use it, and counts what is done with it; only reads and removals that find their key count.

A `DiskStore` holds values encoded by `bincode`. Here it holds the values themselves: it is assumed that
encoding a value and decoding the bytes give that value back, and that neither fails. So `write` and `read` have
no `StorageError::Serialization` to return, and of the bytes only their number is left (`Value.encodedSize`).
-/

namespace IndexedStore

structure BackingStore where
  entries : Table Key Value
  writes : Nat
  reads : Nat
  removes : Nat
deriving Repr, Inhabited

namespace BackingStore

def empty : BackingStore := ⟨[], 0, 0, 0⟩

/-- `DiskStore::write`, where encoding succeeds. -/
def write (s : BackingStore) (key : Key) (value : Value) : BackingStore :=
  { s with entries := Table.set key value s.entries, writes := s.writes + 1 }

/-- `DiskStore::read`, where decoding gives what was written. -/
def read (s : BackingStore) (key : Key) : Option Value × BackingStore :=
  match Table.find? key s.entries with
  | some value => (some value, { s with reads := s.reads + 1 })
  | none => (none, s)

/-- `DiskStore::remove`. -/
def remove (s : BackingStore) (key : Key) : Bool × BackingStore :=
  if Table.contains key s.entries then
    (true, { s with entries := Table.erase key s.entries, removes := s.removes + 1 })
  else (false, s)

def contains (s : BackingStore) (key : Key) : Bool := Table.contains key s.entries

def keys (s : BackingStore) : List Key := Table.keys s.entries

def size (s : BackingStore) : Nat := s.entries.length

/-- The bytes the values take, the `bytes` of `DiskStore::stats`. -/
def bytes (s : BackingStore) : Nat := sumOf (·.2.encodedSize) s.entries

/-- The store with its entries dropped, which counts as nothing (`DiskStore::clear`). -/
def cleared (s : BackingStore) : BackingStore := { s with entries := [] }

end BackingStore

end IndexedStore
