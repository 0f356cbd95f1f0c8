import IndexedStore.Region.Maintenance

/-!
# Operations of a region

The complete operations of a `LocalRegion` and of its `IndexManager`: each changes the region, takes it through
the checkpoints of index maintenance, and answers with a result or an error. A refused operation leaves the
state as it was, but for what reading and scanning count.
-/

namespace IndexedStore

/-- A definition of a region that could not be built (`error::IndexCreationFailure`). -/
structure IndexFailure where
  region : String
  name : String
  error : Error
deriving Repr

namespace IndexFailure

def display (f : IndexFailure) : String :=
  "index '" ++ f.name ++ "' on " ++ f.region ++ ": " ++ f.error.message

end IndexFailure

namespace Host

variable {σ : Type}

/-- Writes a value under a key (`LocalRegion::put`). -/
def put (h : Host σ) (key : Key) (value : Value) (s : σ) : Except Error Unit × σ :=
  match (h.region s).beginPut key value with
  | .error e => (.error e, s)
  | .ok (event, region) =>
    let s := h.notify event (h.setRegion region s)
    (.ok (), h.modify (·.endPut key) s)

/-- Removes the entry of a key, and answers with its last value if that was resident
(`LocalRegion::destroy`). -/
def destroy (h : Host σ) (key : Key) (s : σ) : Except Error (Option Value) × σ :=
  match (h.region s).unmap key with
  | .error e => (.error e, s)
  | .ok (event, region) => (.ok event.old.value?, h.notify event (h.setRegion region s))

/-- Builds an index over the current entries and publishes it, whether or not the region is closed
(`IndexManager::create_index`). -/
def createIndex (h : Host σ) (definition : IndexDefinition) (s : σ) : Except Error IndexId × σ :=
  match (h.region s).beginIndex definition with
  | .error e => (.error e, s)
  | .ok (id, region) =>
    let s := h.setRegion region s
    let listen := h.listener s
    let arrival (c : Checkpoint) : Arrival := ⟨c, region.path, some definition.name, none, false⟩
    let s := listen (arrival .beforeInitialScan) s
    let (scanned, s) := h.run (·.scan id) s
    let s := listen (arrival .afterInitialScan) s
    match h.run (·.endIndex id scanned) s with
    | (.error e, s) => (.error e, s)
    | (.ok id, s) => (.ok id, listen (arrival .afterPublish) s)

/-- Builds an index, unless the region is closed (`LocalRegion::create_index`). -/
def createIndexLive (h : Host σ) (definition : IndexDefinition) (s : σ) : Except Error IndexId × σ :=
  match (h.region s).ensureLive with
  | .error e => (.error e, s)
  | .ok () => h.createIndex definition s

/-- Builds indexes one after another; those that fail do not keep the others from being built: the loop of
`IndexManager::create_defined`. -/
def createEach (h : Host σ) (definitions : List IndexDefinition) (s : σ) :
    (List IndexId × List IndexFailure) × σ :=
  match definitions with
  | [] => (([], []), s)
  | definition :: rest =>
    let (outcome, s) := h.createIndex definition s
    let region := (h.region s).path
    let ((created, failures), s) := h.createEach rest s
    match outcome with
    | .ok id => ((id :: created, failures), s)
    | .error e => ((created, ⟨region, definition.name, e⟩ :: failures), s)

/-- Builds every pending definition in the order of definition. None is pending afterwards
(`IndexManager::create_defined`). -/
def createDefined (h : Host σ) (s : σ) : (List IndexId × List IndexFailure) × σ :=
  let (definitions, s) := h.run Region.takePending s
  h.createEach definitions s

/-- Takes a published index away (`IndexManager::remove_index`). -/
def removeIndex (h : Host σ) (name : String) (s : σ) : Except Error Unit × σ :=
  match (h.region s).unpublish name with
  | .error e => (.error e, s)
  | .ok (id, region) =>
    let s := h.setRegion region s
    let s := h.listener s ⟨.afterUnregister, region.path, some name, none, false⟩ s
    (.ok (), h.modify (·.discardIndex id) s)

/-- Closes the region: its indexes go, its worker finishes what is queued, its entries are dropped. The
backing store keeps its contents (`LocalRegion::close`). -/
def close (h : Host σ) (s : σ) : σ :=
  if (h.region s).destroyed then s
  else
    let s := h.modify (fun r => { r with destroyed := true }.clearIndexes) s
    let s := h.catchUp s
    h.modify (fun r => { r.stopWorker with entries := r.entries.cleared }) s

/-- Closes the region and drops the contents of its backing store (`LocalRegion::destroy_region`). -/
def destroyRegion (h : Host σ) (s : σ) : σ :=
  h.modify (fun r => { r with disk := r.disk.map (·.cleared) }) (h.close s)

end Host

namespace Region

/-- One entry of a backing store taken into a region being recovered, which has `recovered` entries so
far: with its value while the settings allow more resident values, and evicted from then on. A turn of the loop
of `LocalRegion::recover`. -/
def recoverEntry (r : Region) (recovered : Nat) (key : Key) : Nat × Region :=
  if r.settings.overflow.all (recovered < ·) then
    match (r.disk.getD .empty).read key with
    | (some value, disk) =>
      (recovered + 1, { r with
        entries := r.entries.set key ⟨.resident value, false⟩
        disk := some disk
        recency := if r.settings.overflow.isSome then r.recency ++ [key] else r.recency })
    | (none, disk) => (recovered, { r with disk := some disk })
  else (recovered + 1, { r with entries := r.entries.set key ⟨.evicted, false⟩ })

/-- A persistent region made again from its backing store (`LocalRegion::recover`). Indexes are not kept there. -/
def recover (seeds : Seeds) (path : String) (settings : Settings) (disk : BackingStore) :
    Except Error Region :=
  if !settings.persistent then .error (.notPersistent path)
  else match make seeds path settings (some disk) with
    | .error e => .error e
    | .ok r => .ok (disk.keys.foldl (fun (n, r) key => r.recoverEntry n key) (0, r)).2

end Region

end IndexedStore
