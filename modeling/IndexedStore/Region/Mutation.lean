import IndexedStore.Region.Basic

/-!
# Mutations of a region

A put (`LocalRegion::put`) has two phases around the updates of the indexes: `beginPut` writes the value and
locks the entry, `endPut` unlocks it, makes its key the most recently used and evicts what is over the limit. A
destroy (`LocalRegion::destroy`) has one phase before them, `unmap`: the entry is gone before the indexes hear of
it.
-/

namespace IndexedStore

namespace Region

/-- A value written to the backing store, where there is one. -/
def writeDisk (r : Region) (key : Key) (value : Value) : Region :=
  { r with disk := r.disk.map (·.write key value) }

/-- A key removed from the backing store, where there is one. -/
def removeDisk (r : Region) (key : Key) : Region :=
  { r with disk := r.disk.map fun disk => (disk.remove key).2 }

/-- What a put does to an entry with the given old value (`EntryEvent::create`, `EntryEvent::update`). -/
def putEvent (key : Key) (old : Option EntryValue) (value : Value) : EntryEvent :=
  match old with
  | none => ⟨key, .create, .absent, .resident value⟩
  | some (.resident previous) => ⟨key, .update, .resident previous, .resident value⟩
  | some .evicted => ⟨key, .update, .evicted, .resident value⟩

/-- A put counted as a create or as an update. -/
def countPut (r : Region) (old : Option EntryValue) : Region :=
  match old with
  | none => { r with counters := { r.counters with creates := r.counters.creates + 1 } }
  | some _ => { r with counters := { r.counters with updates := r.counters.updates + 1 } }

/-- The evicted value that a put replaces, removed from a backing store that does not hold every value
anyway. -/
def dropEvicted (r : Region) (key : Key) (old : Option EntryValue) : Region :=
  match old with
  | some .evicted => if r.settings.persistent then r else r.removeDisk key
  | _ => r

/-- A value written under a key, and the entry locked: `LocalRegion::put` up to its call of
`IndexManager::on_entry_event`. -/
def beginPut (r : Region) (key : Key) (value : Value) : Except Error (EntryEvent × Region) :=
  match r.ensureLive with
  | .error e => .error e
  | .ok () =>
    let found := r.entries.find? key
    if found.any (·.locked) then .error (.entryLocked key)
    else
      let old := found.map (·.value)
      let r := if r.settings.persistent then r.writeDisk key value else r
      let r := { r with entries := r.entries.set key ⟨.resident value, true⟩ }
      .ok (putEvent key old value, (r.countPut old).dropEvicted key old)

/-- The entry of a key unlocked, if it is still there. -/
def unlock (r : Region) (key : Key) : Region :=
  match r.entries.find? key with
  | some entry => { r with entries := r.entries.set key { entry with locked := false } }
  | none => r

/-- A key made the most recently used, where that is kept track of (`LruCache::put`). -/
def touch (r : Region) (key : Key) : Region :=
  if r.settings.overflow.isSome then { r with recency := r.recency.erase key ++ [key] } else r

/-- The value of a key moved to the backing store, or `none` when the entry is locked. A key without a
resident value is left as it is (`LocalRegion::evict_entry`). -/
def evict? (r : Region) (key : Key) : Option Region :=
  match r.entries.find? key with
  | none => some r
  | some entry =>
    if entry.locked then none
    else match entry.value with
      | .evicted => some r
      | .resident value =>
        let r := if r.settings.persistent then r else r.writeDisk key value
        some { r with
          entries := r.entries.set key { entry with value := .evicted }
          counters := { r.counters with evictions := r.counters.evictions + 1 } }

/-- Values evicted from the least recently used on, until `limit` are left. A locked entry ends that, as
the most recently used one: the loop of `LocalRegion::evict_if_needed`. -/
def evictFrom (r : Region) (limit : Nat) : List Key → Region
  | [] => { r with recency := [] }
  | key :: rest =>
    if rest.length < limit then { r with recency := key :: rest }
    else match r.evict? key with
      | some evicted => evicted.evictFrom limit rest
      | none => { r with recency := rest ++ [key] }

/-- Values evicted until no more than the settings allow are resident (`LocalRegion::evict_if_needed`). -/
def evictOverflow (r : Region) : Region :=
  match r.settings.overflow with
  | some limit => r.evictFrom limit r.recency
  | none => r

/-- A put brought to its end: `LocalRegion::put` from its return from `IndexManager::on_entry_event` on. -/
def endPut (r : Region) (key : Key) : Region := ((r.touch key).unlock key).evictOverflow

/-- The side of a mutation that an entry's value makes. -/
def eventValueOf : EntryValue → EventValue
  | .resident value => .resident value
  | .evicted => .evicted

/-- The entry of a key taken out of the region and the backing store: `LocalRegion::destroy` up to its call of
`IndexManager::on_entry_event`. The lock of an entry that is in no table keeps nobody waiting, so none is kept
for the updates of the indexes. -/
def unmap (r : Region) (key : Key) : Except Error (EntryEvent × Region) :=
  match r.ensureLive with
  | .error e => .error e
  | .ok () =>
    match r.entries.find? key with
    | none => .error (.entryNotFound key r.path)
    | some entry =>
      if entry.locked then .error (.entryLocked key)
      else
        let r := ({ r with entries := r.entries.erase key }).removeDisk key
        let r := { r with
          recency := r.recency.erase key
          counters := { r.counters with destroys := r.counters.destroys + 1 } }
        .ok (.destroyed key (eventValueOf entry.value), r)

end Region

end IndexedStore
