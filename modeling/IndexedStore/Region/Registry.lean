import IndexedStore.Index.Basic
import IndexedStore.Settings.Basic

/-!
# Registries

The indexes of one region: the state of an `IndexManager`, which is its `manager::Registry`, its
`MaintenanceTargets` and the queue of its `AsyncMaintenance`. Every index ever begun keeps its place in `all`, so
that whoever holds on to it can still look at it. An index is `building` while the scan that fills it goes on
and `published` afterwards; the `targets` are the indexes that mutations are applied to. Definitions wait in
`pending`. In an asynchronous region mutations wait in `queue` until the worker applies them.
-/

namespace IndexedStore

/-- The place of an index in its registry. -/
abbrev IndexId := Nat

/-- An entry's new value on its way to the indexes (a `Task::Apply`). -/
structure Update where
  key : Key
  value : Option Value
deriving Repr, Inhabited

structure Registry where
  all : List Index
  /-- In the order of publication. -/
  published : List IndexId
  building : List IndexId
  targets : List IndexId
  pending : List IndexDefinition
  queue : List Update
  /-- Whether queued updates are still taken in. -/
  workerRunning : Bool
deriving Inhabited

namespace Registry

def empty (maintenance : Maintenance) : Registry where
  all := []
  published := []
  building := []
  targets := []
  pending := []
  queue := []
  workerRunning := maintenance == .asynchronous

def index? (r : Registry) (id : IndexId) : Option Index := r.all[id]?

def modify (r : Registry) (id : IndexId) (f : Index → Index) : Registry :=
  { r with all := r.all.modify id f }

/-- Indexes by their places, with those places. -/
def indexesAt (r : Registry) (ids : List IndexId) : List (IndexId × Index) :=
  ids.filterMap fun id => (r.index? id).map (id, ·)

/-- The published indexes in creation order (`IndexManager::get_indexes`). -/
def publishedIndexes (r : Registry) : List (IndexId × Index) := r.indexesAt r.published

/-- The published indexes, then those being built. -/
def known (r : Registry) : List Index := (r.indexesAt (r.published ++ r.building)).map (·.2)

/-- The published index of a name (`IndexManager::get_index`). -/
def named? (r : Registry) (name : String) : Option (IndexId × Index) :=
  r.publishedIndexes.find? fun (_, ix) => ix.name = name

/-- The indexes that a mutation is to be applied to: the targets that are not removed
(`MaintenanceTargets::snapshot`). -/
def liveTargets (r : Registry) : List (IndexId × Index) :=
  (r.indexesAt r.targets).filter fun (_, ix) => ix.state ≠ .removed

/-- Why an index cannot be begun: its name is taken, or else its signature is (`Registry::check_conflicts`). -/
def conflict? (r : Registry) (region : String) (compiled : CompiledDefinition) : Option Error :=
  let name := compiled.name
  if r.known.any (·.name = name) ∨ r.pending.any (·.name = name) then some (.nameTaken name region)
  else match r.known.find? (·.signature = compiled.signature) with
    | some existing => some (.duplicateIndex name existing.name)
    | none => none

/-- A new index begun: it is a target at once, and building. The first critical section of
`IndexManager::create_index`, after its check. -/
def enter (r : Registry) (ix : Index) : IndexId × Registry :=
  let id := r.all.length
  (id, { r with
    all := r.all ++ [ix]
    building := r.building ++ [id]
    targets := r.targets ++ [id] })

/-- A filled index made ready and visible: the second critical section of `IndexManager::create_index` after a
scan that succeeded. -/
def publish (r : Registry) (id : IndexId) (report : BuildReport) : Registry :=
  let r := r.modify id fun ix => { ix with build := report, state := .ready }
  { r with building := r.building.erase id, published := r.published ++ [id] }

/-- An index that could not be filled given up: the same section after a scan that failed. -/
def abandon (r : Registry) (id : IndexId) : Registry :=
  let r := r.modify id Index.discard
  { r with building := r.building.erase id, targets := r.targets.erase id }

/-- A published index taken out of sight and out of the targets: the critical section of
`IndexManager::remove_index`. -/
def unpublish (r : Registry) (id : IndexId) : Registry :=
  { r with published := r.published.erase id, targets := r.targets.erase id }

/-- Every index discarded, building ones too, and every definition dropped (`IndexManager::clear`). -/
def cleared (r : Registry) : Registry :=
  let r := (r.published ++ r.building).foldl (fun r id => r.modify id Index.discard) r
  { r with pending := [], targets := [], published := [], building := [] }

/-- An update put at the end of the queue; nobody takes it once the worker has stopped
(`AsyncMaintenance::enqueue`). -/
def enqueue (r : Registry) (update : Update) : Registry :=
  if r.workerRunning then { r with queue := r.queue ++ [update] } else r

/-- What a query needs of an index (`manager::IndexRequirement`). -/
structure Requirement where
  comparison : Comparison
  /-- Look-ups have to come back in the order of the indexed values. -/
  ordered : Bool
deriving Repr, DecidableEq

namespace Requirement

/-- The rank of a kind of index: for equality without order (`IndexRequirement::is_pure_equality`) a primary-key
index is best and a hash index next; otherwise all that qualify are alike. -/
def kindRank (need : Requirement) (kind : IndexKind) : Nat :=
  if !need.ordered ∧ (need.comparison = .eq ∨ need.comparison = .isUndefined) then
    match kind with
    | .primaryKey => 0
    | .hash => 1
    | .range => 2
  else 0

end Requirement

/-- The coverage with which an index can answer a predicate on a path, if it can: the filters of
`IndexManager::choose_index`. -/
def suitability? (scope : Scope) (path : Path) (need : Requirement) (ix : Index) : Option Coverage :=
  if ix.kind.supports need.comparison ∧ (need.ordered → ix.kind.isOrdered) ∧ ix.indexesPath scope path
  then ix.compiled.scope.coverage? scope
  else none

/-- The better of two candidates; of two equals the first, as `min_by_key` has it. -/
def better (need : Requirement) (a b : IndexId × Index × Coverage) : IndexId × Index × Coverage :=
  let rank (c : IndexId × Index × Coverage) : Nat := 3 * c.2.2.rank + need.kindRank c.2.1.kind
  if rank b < rank a then b else a

/-- The best published index for a predicate on a path of a scope: by coverage, then by kind, then by
age (`IndexManager::choose_index`). -/
def choose? (r : Registry) (scope : Scope) (path : Path) (need : Requirement) :
    Option (IndexId × Index × Coverage) :=
  let candidates := r.publishedIndexes.filterMap fun (id, ix) =>
    (suitability? scope path need ix).map (id, ix, ·)
  match candidates with
  | [] => none
  | first :: rest => some (rest.foldl (better need) first)

end Registry

end IndexedStore
