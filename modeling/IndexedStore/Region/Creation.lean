import IndexedStore.Region.Basic

/-!
# Filling an index

An index is begun as a target of mutations, filled from the entries one by one, each read under its
lock, and then published; where a read fails it is abandoned (`IndexManager::create_index`, `builder::populate`).
Each phase is a function of the region, so that mutations can come between any two of them.
-/

namespace IndexedStore

namespace Region

/-- The empty index of a definition, with a hash function of its own, which `HashStructure::new` draws. -/
def newIndex (r : Region) (compiled : CompiledDefinition) : Index :=
  .new compiled (r.indexHasher r.registry.all.length) r.settings.hashStripes

/-- An index begun on this region, unless its definition or a conflict forbids: `IndexManager::create_index` up to
the end of its first critical section. -/
def beginIndex (r : Region) (definition : IndexDefinition) : Except Error (IndexId × Region) :=
  match definition.compile with
  | .error fault => .error (.parse fault)
  | .ok compiled =>
    if compiled.regionPath ≠ r.path then
      .error (.foreignIndex compiled.name compiled.regionPath r.path)
    else match r.registry.conflict? r.path compiled with
      | some conflict => .error conflict
      | none =>
        let (id, registry) := r.registry.enter (r.newIndex compiled)
        .ok (id, { r with registry := registry })

/-- One entry read under its lock and taken into an index: a turn of the loop of `builder::populate`. -/
def scanEntry (r : Region) (id : IndexId) (report : BuildReport) (key : Key) :
    Except Error BuildReport × Region :=
  match r.snapshot key with
  | (.error e, r) => (.error e, r)
  | (.ok ⟨none, _⟩, r) => (.ok report, r)
  | (.ok ⟨some value, fromDisk⟩, r) =>
    match r.registry.index? id with
    | none => (.ok report, r)
    | some ix =>
      let (taken, ix) := ix.maintain key (some value)
      let report : BuildReport := {
        scanned := report.scanned + 1
        fromDisk := report.fromDisk + (if fromDisk then 1 else 0)
        exceptions := report.exceptions + (if taken then 0 else 1) }
      (.ok report, { r with registry := r.registry.modify id fun _ => ix })

/-- Entries taken into an index in order, up to the first whose value cannot be read. -/
def scanEntries (r : Region) (id : IndexId) (report : BuildReport) :
    List Key → Except Error BuildReport × Region
  | [] => (.ok report, r)
  | key :: rest =>
    match r.scanEntry id report key with
    | (.ok report, r) => r.scanEntries id report rest
    | (.error e, r) => (.error e, r)

/-- All entries that are there now taken into an index (`builder::populate`). -/
def scan (r : Region) (id : IndexId) : Except Error BuildReport × Region :=
  r.scanEntries id .empty r.keys

/-- An index published after a scan, or abandoned when the scan failed: the second critical section of
`IndexManager::create_index`. -/
def endIndex (r : Region) (id : IndexId) (scanned : Except Error BuildReport) :
    Except Error IndexId × Region :=
  match scanned with
  | .ok report => (.ok id, { r with registry := r.registry.publish id report })
  | .error e => (.error e, { r with registry := r.registry.abandon id })

/-- A definition kept until the defined indexes are created (`IndexManager::define`). -/
def define (r : Region) (definition : IndexDefinition) : Except Error Region :=
  match definition.compile with
  | .error fault => .error (.parse fault)
  | .ok compiled =>
    if compiled.regionPath ≠ r.path then
      .error (.foreignDefinition compiled.name compiled.regionPath r.path)
    else
      .ok { r with registry := { r.registry with pending := r.registry.pending ++ [definition] } }

/-- The pending definitions, taken out of the region, as `IndexManager::create_defined` begins. -/
def takePending (r : Region) : List IndexDefinition × Region :=
  (r.registry.pending, { r with registry := { r.registry with pending := [] } })

/-- The published index of a name, taken out of sight and out of the targets: `IndexManager::remove_index` up to
its checkpoint. -/
def unpublish (r : Region) (name : String) : Except Error (IndexId × Region) :=
  match r.registry.named? name with
  | none => .error (.indexNotFoundOn name r.path)
  | some (id, _) => .ok (id, { r with registry := r.registry.unpublish id })

/-- An index's contents dropped (`Index::discard`). -/
def discardIndex (r : Region) (id : IndexId) : Region :=
  { r with registry := r.registry.modify id Index.discard }

/-- Every index discarded and every definition dropped (`IndexManager::clear`). -/
def clearIndexes (r : Region) : Region := { r with registry := r.registry.cleared }

end Region

end IndexedStore
