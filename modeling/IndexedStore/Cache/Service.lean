import IndexedStore.Cache.Basic

/-!
# Operations of a cache

Definitions and queries name a region by the path of their scope, and go to the region that the catalog
has there (`cache::QueryService`).
-/

namespace IndexedStore

/-- A cache inside a state, and the listener and observer installed in that state. -/
structure CacheHost (σ : Type) where
  cache : σ → Cache
  setCache : Cache → σ → σ
  listener : σ → Listener σ
  observer : σ → Observer σ

namespace CacheHost

variable {σ : Type}

/-- The host of one region of the cache. -/
def hostOf (h : CacheHost σ) (id : RegionId) : QueryHost σ where
  region s := (h.cache s).region id
  setRegion r s := h.setCache ((h.cache s).setRegion id r) s
  listener := h.listener
  observer := h.observer

/-- The region that a definition is for (`QueryService::target_region`). -/
def target (h : CacheHost σ) (definition : IndexDefinition) (s : σ) : Except Error RegionId :=
  match definition.compile with
  | .error fault => .error (.parse fault)
  | .ok compiled => (h.cache s).find compiled.regionPath

/-- Builds an index (`QueryService::create`). -/
def createIndex (h : CacheHost σ) (definition : IndexDefinition) (s : σ) : Except Error IndexRef × σ :=
  match h.target definition s with
  | .error e => (.error e, s)
  | .ok id =>
    let (created, s) := (h.hostOf id).createIndexLive definition s
    (created.map (⟨id, ·⟩), s)

/-- Keeps a definition until the defined indexes are created (`QueryService::define`). -/
def define (h : CacheHost σ) (definition : IndexDefinition) (s : σ) : Except Error Unit × σ :=
  match h.target definition s with
  | .error e => (.error e, s)
  | .ok id =>
    match ((h.cache s).region id).define definition with
    | .error e => (.error e, s)
    | .ok r => (.ok (), (h.hostOf id).setRegion r s)

/-- Takes an index of the region at a path away (`QueryService::remove_index`). -/
def removeIndex (h : CacheHost σ) (path name : String) (s : σ) : Except Error Unit × σ :=
  match (h.cache s).find path with
  | .error e => (.error e, s)
  | .ok id => (h.hostOf id).removeIndex name s

/-- Takes indexes away by name, up to the first that is not there. -/
def removeEach (h : CacheHost σ) (id : RegionId) : List String → σ → Except Error Unit × σ
  | [], s => (.ok (), s)
  | name :: rest, s =>
    match (h.hostOf id).removeIndex name s with
    | (.ok (), s) => h.removeEach id rest s
    | (.error e, s) => (.error e, s)

/-- Takes every index of the region at a path away (`QueryService::remove_indexes`). -/
def removeIndexes (h : CacheHost σ) (path : String) (s : σ) : Except Error Unit × σ :=
  match (h.cache s).find path with
  | .error e => (.error e, s)
  | .ok id =>
    h.removeEach id ((((h.cache s).region id).registry.publishedIndexes).map fun (_, ix) => ix.name) s

/-- The plan of a query (`QueryService::explain`). -/
def explain (h : CacheHost σ) (q : Query) (s : σ) : Except Error Plan :=
  match (h.cache s).find q.scope.regionPath with
  | .error e => .error e
  | .ok id => q.plan true ((h.cache s).region id)

/-- Plans and runs a query on a region. -/
def executeOn (h : CacheHost σ) (id : RegionId) (q : Query) (optimize : Bool) (s : σ) :
    Except Error Results × σ :=
  match q.plan optimize ((h.cache s).region id) with
  | .error e => (.error e, s)
  | .ok plan => (h.hostOf id).execute q plan s

/-- Plans and runs a query (`QueryService::execute`). -/
def execute (h : CacheHost σ) (q : Query) (s : σ) : Except Error Results × σ :=
  match (h.cache s).find q.scope.regionPath with
  | .error e => (.error e, s)
  | .ok id => h.executeOn id q true s

/-- Takes a region out of the catalog and destroys it with its indexes and its stored values
(`Cache::destroy_region`). -/
def destroyRegion (h : CacheHost σ) (path : String) (s : σ) : Except Error Unit × σ :=
  match Cache.pathOf path with
  | .error e => (.error e, s)
  | .ok path =>
    let c := h.cache s
    match Table.find? path c.catalog with
    | none => (.error (.regionNotFound path), s)
    | some id =>
      (.ok (), (h.hostOf id).destroyRegion (h.setCache { c with catalog := Table.erase path c.catalog } s))

/-- Takes the region at a path of the catalog out and closes it. -/
def closeRegion (h : CacheHost σ) (s : σ) (path : String) : σ :=
  let c := h.cache s
  match Table.find? path c.catalog with
  | none => s
  | some id => (h.hostOf id).close (h.setCache { c with catalog := Table.erase path c.catalog } s)

/-- Closes every region of the catalog; the backing stores keep their contents (`Cache::close`). -/
def close (h : CacheHost σ) (s : σ) : σ := (Table.keys (h.cache s).catalog).foldl h.closeRegion s

end CacheHost

end IndexedStore
