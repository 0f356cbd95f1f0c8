import IndexedStore.Region.BackingStore
import IndexedStore.Region.Partitioned
import IndexedStore.Region.Registry

/-!
# Regions

A region (`local::LocalRegion`) holds entries under keys. An entry's value is resident, or it is evicted and
stands in the backing store only. Where the settings limit the number of resident values, `recency` lists the
keys of resident values, least recently used first: the keys of the `LruCache`. An entry is locked while a
mutation of it is in progress, its updates of the indexes included; what would have to wait for the lock is
refused.
-/

namespace IndexedStore

/-- The `EntryState` of an entry that is there: a destroyed one is not in the table. -/
inductive EntryValue where
  | resident (value : Value)
  | evicted
deriving Repr, Inhabited

/-- A `RegionEntry`, with whether its mutex is held. -/
structure Entry where
  value : EntryValue
  locked : Bool
deriving Repr, Inhabited

structure RegionCounters where
  creates : Nat
  updates : Nat
  destroys : Nat
  evictions : Nat
  /-- Evicted values read back. -/
  diskReads : Nat
deriving Repr, DecidableEq, Inhabited

/-- What a region draws at random when it is made, and for its indexes later on: the `RandomState`s of
`LocalRegion::build` and `HashStructure::new`, and those of the `DashMap`s. -/
structure Seeds where
  /-- The hash function that spreads the entries over buckets. -/
  hasher : Hasher
  /-- The order in which the entries are listed. -/
  listing : Listing
  /-- The hash function of each index, by its place in the registry. -/
  indexHasher : IndexId → Hasher
deriving Inhabited

structure Region where
  path : String
  settings : Settings
  entries : Partitioned Entry
  indexHasher : IndexId → Hasher
  disk : Option BackingStore
  recency : List Key
  registry : Registry
  counters : RegionCounters
  destroyed : Bool
deriving Inhabited

/-- What a mutation did to an entry (`region::Operation`). -/
inductive Operation where
  | create
  | update
  | destroy
  /-- The value went to the backing store; the entry is still there. -/
  | evict
deriving Repr, DecidableEq, Inhabited

/-- One side of a mutation (`region::EntryValue`). -/
inductive EventValue where
  | absent
  | resident (value : Value)
  | evicted
deriving Repr, Inhabited

namespace EventValue

def value? : EventValue → Option Value
  | .resident v => some v
  | .absent | .evicted => none

end EventValue

/-- A mutation of an entry, as the indexes hear of it (`region::EntryEvent`). -/
structure EntryEvent where
  key : Key
  operation : Operation
  old : EventValue
  new : EventValue
deriving Repr, Inhabited

namespace EntryEvent

/-- An entry is gone, whatever its value was (`EntryEvent::destroy`). -/
def destroyed (key : Key) (old : EventValue) : EntryEvent := ⟨key, .destroy, old, .absent⟩

end EntryEvent

namespace Region

/-- An empty region at a path, over a backing store if it has one (`LocalRegion::build`). -/
def make (seeds : Seeds) (path : String) (settings : Settings) (disk : Option BackingStore) :
    Except Error Region := do
  settings.validate
  match Scope.parse path.toList with
  | .error fault => throw (.parse fault)
  | .ok scope =>
    return {
      path := scope.regionPath
      settings := settings
      entries := .empty seeds.hasher seeds.listing settings.bucketCount
      indexHasher := seeds.indexHasher
      disk := disk
      recency := []
      registry := .empty settings.maintenance
      counters := ⟨0, 0, 0, 0, 0⟩
      destroyed := false }

def ensureLive (r : Region) : Except Error Unit :=
  if r.destroyed then .error (.regionDestroyed r.path) else .ok ()

/-- The keys of all entries (`LocalRegion::keys`, `LocalRegion::entry_keys`). -/
def keys (r : Region) : List Key := r.entries.keys

def size (r : Region) : Nat := r.entries.size

def contains (r : Region) (key : Key) : Bool := (r.entries.find? key).isSome

/-- Whether the value of a key is in memory (`LocalRegion::is_resident`). -/
def isResident (r : Region) (key : Key) : Bool :=
  match r.entries.find? key with
  | some ⟨.resident _, _⟩ => true
  | _ => false

/-- The number of entries whose value is in memory, and of those whose value is not, as `LocalRegion::stats` has
them. -/
def residency (r : Region) : Nat × Nat :=
  let resident := r.entries.toTable.filter fun (_, e) =>
    match e.value with
    | .resident _ => true
    | .evicted => false
  (resident.length, r.size - resident.length)

/-- An evicted value read back from the backing store; the entry stays evicted (`LocalRegion::fault_in`). -/
def faultIn (r : Region) (key : Key) : Except Error Value × Region :=
  match r.disk with
  | none => (.error (.noBackingStore key), r)
  | some disk =>
    match disk.read key with
    | (none, disk) => (.error (.notInBackingStore key), { r with disk := some disk })
    | (some value, disk) =>
      (.ok value, { r with
        disk := some disk
        counters := { r.counters with diskReads := r.counters.diskReads + 1 } })

/-- The value of an entry. -/
def valueOf (r : Region) (key : Key) (entry : Entry) : Except Error Value × Region :=
  match entry.value with
  | .resident value => (.ok value, r)
  | .evicted => r.faultIn key

/-- The current value of a key, read without regard to locks (`LocalRegion::read_value`). -/
def readValue (r : Region) (key : Key) : Except Error (Option Value) × Region :=
  match r.entries.find? key with
  | none => (.ok none, r)
  | some entry =>
    match r.valueOf key entry with
    | (.ok value, r) => (.ok (some value), r)
    | (.error e, r) => (.error e, r)

/-- A key made the most recently used of those that are listed (`LruCache::promote`). -/
def promote (r : Region) (key : Key) : Region :=
  if key ∈ r.recency then { r with recency := r.recency.erase key ++ [key] } else r

/-- The current value of a key (`LocalRegion::get`). Reading makes a resident value recently used, and does not
bring an evicted one back to memory. -/
def get (r : Region) (key : Key) : Except Error (Option Value) × Region :=
  match r.ensureLive with
  | .error e => (.error e, r)
  | .ok () =>
    match r.readValue key with
    | (.ok (some value), r) => (.ok (some value), r.promote key)
    | other => other

/-- An entry as it is found under its lock (`region::EntrySnapshot`). -/
structure Snapshot where
  value : Option Value
  /-- Whether the value was read from the backing store. -/
  fromDisk : Bool
deriving Repr, Inhabited

/-- An entry read under its lock: what `LocalRegion::with_entry_lock` hands to its function. -/
def snapshot (r : Region) (key : Key) : Except Error Snapshot × Region :=
  match r.ensureLive with
  | .error e => (.error e, r)
  | .ok () =>
    match r.entries.find? key with
    | none => (.ok ⟨none, false⟩, r)
    | some entry =>
      if entry.locked then (.error (.entryLocked key), r)
      else match entry.value with
        | .resident value => (.ok ⟨some value, false⟩, r)
        | .evicted =>
          match r.faultIn key with
          | (.ok value, r) => (.ok ⟨some value, true⟩, r)
          | (.error e, r) => (.error e, r)

/-- A region shown with its fields: `LocalRegion`'s `Debug`. -/
def describe (r : Region) : String :=
  "LocalRegion \x7b path: " ++ Text.quoted r.path ++ ", shape: " ++ Text.quoted r.settings.describe ++
    " \x7d"

end Region

end IndexedStore
