import IndexedStore.Cache.Service

/-!
# Batches

All pending definitions of all regions are built together (`QueryService::create_defined_indexes`). Each
definition has one outcome, an index or a failure, and a failure keeps no other index from being built. The
regions, whose indexes `create_defined_indexes` builds side by side, are taken one after another.
-/

namespace IndexedStore

/-- The outcomes of a batch: region by region in the order of paths, and within a region in the order of
definition. With failures it is a `MultiIndexCreationError`. -/
structure Batch where
  created : List IndexRef
  failures : List IndexFailure
deriving Repr, Inhabited

namespace Batch

def append (a b : Batch) : Batch := ⟨a.created ++ b.created, a.failures ++ b.failures⟩

/-- The failures in few words: the `Display` of a `MultiIndexCreationError`. -/
def message (b : Batch) : String :=
  toString b.failures.length ++ " of " ++ toString (b.created.length + b.failures.length) ++
    " defined indexes failed: " ++
    Text.joinWith ", " (b.failures.map fun f => f.name ++ " on " ++ f.region)

/-- A cause added to those of a name, the names in order. -/
def addCause (name : String) (cause : Error) :
    List (String × List Error) → List (String × List Error)
  | [] => [(name, [cause])]
  | (n, causes) :: rest =>
    if name < n then (name, [cause]) :: (n, causes) :: rest
    else if name = n then (n, causes ++ [cause]) :: rest
    else (n, causes) :: addCause name cause rest

/-- The causes of failure by the name of the index, one for each failed attempt
(`MultiIndexCreationError::exceptions`). -/
def causesByName (b : Batch) : List (String × List Error) :=
  b.failures.foldl (fun grouped f => addCause f.name f.error grouped) []

/-- The causes of failure of a name on one region (`MultiIndexCreationError::failures_of`). -/
def causesOf (b : Batch) (region name : String) : List Error :=
  (b.failures.filter fun f => f.region = region ∧ f.name = name).map (·.error)

end Batch

namespace CacheHost

variable {σ : Type}

/-- The pending definitions of one region built (`IndexManager::create_defined`). -/
def createDefinedOn (h : CacheHost σ) (id : RegionId) (s : σ) : Batch × σ :=
  let ((created, failures), s) := (h.hostOf id).createDefined s
  (⟨created.map (⟨id, ·⟩), failures⟩, s)

/-- The pending definitions of regions built, one region after another. -/
def createDefinedOnEach (h : CacheHost σ) : List RegionId → σ → Batch × σ
  | [], s => (⟨[], []⟩, s)
  | id :: rest, s =>
    let (first, s) := h.createDefinedOn id s
    let (others, s) := h.createDefinedOnEach rest s
    (first.append others, s)

/-- Every pending definition built (`QueryService::create_defined_indexes`). -/
def createDefined (h : CacheHost σ) (s : σ) : Batch × σ :=
  let c := h.cache s
  h.createDefinedOnEach (c.regionIds.filter fun id => !(c.region id).registry.pending.isEmpty) s

end CacheHost

end IndexedStore
