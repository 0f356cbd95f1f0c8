import IndexedStore.Query.Execution
import IndexedStore.Region.Operations

/-!
# Caches

A cache (`cache::Cache`) names regions by their paths and holds the backing stores that regions write to. A
region that left the catalog stays reachable by its number. Several regions can write to one backing store, so
the stores are kept apart from the regions: `Cache.region` gives a region with its store as it is now, and
`Cache.setRegion` puts both back.
-/

namespace IndexedStore

/-- The number of a region in a cache. -/
abbrev RegionId := Nat

/-- The number of a backing store in a cache. -/
abbrev StoreId := Nat

/-- A region, and the number of its backing store. -/
structure Shelf where
  region : Region
  store : Option StoreId
deriving Inhabited

structure Cache where
  /-- What each region draws, by its number. -/
  seeds : RegionId → Seeds
  shelves : List Shelf
  stores : List BackingStore
  /-- The regions by path. -/
  catalog : Table String RegionId
deriving Inhabited

/-- An index of a region of a cache. -/
structure IndexRef where
  region : RegionId
  index : IndexId
deriving Repr, DecidableEq, Inhabited

namespace Cache

def empty (seeds : RegionId → Seeds) : Cache := ⟨seeds, [], [], []⟩

/-- What the next region draws. -/
def nextSeeds (c : Cache) : Seeds := c.seeds c.shelves.length

/-- A region with its backing store as it is now. -/
def region (c : Cache) (id : RegionId) : Region :=
  match c.shelves[id]? with
  | none => default
  | some shelf => { shelf.region with disk := shelf.store.bind (c.stores[·]?) }

/-- A region and its backing store put back. -/
def setRegion (c : Cache) (id : RegionId) (r : Region) : Cache :=
  let stores := match (c.shelves[id]?).bind (·.store), r.disk with
    | some store, some disk => c.stores.set store disk
    | _, _ => c.stores
  { c with stores := stores, shelves := c.shelves.modify id fun shelf => { shelf with region := r } }

/-- A new backing store with nothing in it. -/
def addStore (c : Cache) : StoreId × Cache :=
  (c.stores.length, { c with stores := c.stores ++ [.empty] })

/-- A new region, outside of the catalog, as who calls `LocalRegion::new` has it. -/
def addRegion (c : Cache) (r : Region) (store : Option StoreId) : RegionId × Cache :=
  let (store, c) := match store, r.disk with
    | none, some disk => (some c.stores.length, { c with stores := c.stores ++ [disk] })
    | store, _ => (store, c)
  let c := match store, r.disk with
    | some id, some disk => { c with stores := c.stores.set id disk }
    | _, _ => c
  (c.shelves.length, { c with shelves := c.shelves ++ [⟨r, store⟩] })

/-- The path of a region as the catalog has it: as the scope of all its entries names it (`cache::normalize`). -/
def pathOf (path : String) : Except Error String :=
  match Scope.parse path.toList with
  | .ok scope => .ok scope.regionPath
  | .error fault => .error (.parse fault)

/-- A region made at a path that the catalog does not have yet, and entered there (`Cache::insert_region`). -/
def enroll (c : Cache) (path : String) (make : String → Except Error Region) (store : Option StoreId) :
    Except Error (RegionId × Cache) :=
  match pathOf path with
  | .error e => .error e
  | .ok path =>
    if Table.contains path c.catalog then .error (.regionExists path)
    else match make path with
      | .error e => .error e
      | .ok r =>
        let (id, c) := c.addRegion r store
        .ok (id, { c with catalog := Table.set path id c.catalog })

/-- A region outside of the catalog, with a backing store of its own if its settings need one
(`LocalRegion::new`). -/
def standalone (c : Cache) (path : String) (settings : Settings) : Except Error (RegionId × Cache) :=
  let disk := if settings.usesDisk then some BackingStore.empty else none
  (Region.make c.nextSeeds path settings disk).map (c.addRegion · none)

/-- A new region, over a given backing store, or else one of its own if its settings need one
(`Cache::create_region_with_disk_store`, `Cache::create_region`). -/
def createRegion (c : Cache) (path : String) (settings : Settings) (store : Option StoreId) :
    Except Error (RegionId × Cache) :=
  let disk := match store with
    | some id => c.stores[id]?
    | none => if settings.usesDisk then some .empty else none
  c.enroll path (Region.make c.nextSeeds · settings disk) store

/-- A persistent region made again from its backing store (`Cache::recover_region`). -/
def recoverRegion (c : Cache) (path : String) (settings : Settings) (store : StoreId) :
    Except Error (RegionId × Cache) :=
  c.enroll path (Region.recover c.nextSeeds · settings ((c.stores[store]?).getD .empty)) (some store)

/-- The region that the catalog has at a path (`Cache::get_region`). -/
def find (c : Cache) (path : String) : Except Error RegionId :=
  match pathOf path with
  | .error e => .error e
  | .ok path =>
    match Table.find? path c.catalog with
    | some id => .ok id
    | none => .error (.regionNotFound path)

/-- The catalog in the order of paths. -/
def listing (c : Cache) : List (String × RegionId) :=
  c.catalog.mergeSort fun a b => decide (a.1 ≤ b.1)

/-- The regions of the catalog in the order of their paths (`Cache::regions`). -/
def regionIds (c : Cache) : List RegionId := c.listing.map (·.2)

/-- The index of a name in the region at a path (`QueryService::get_index`). -/
def index? (c : Cache) (path name : String) : Option IndexRef :=
  match c.find path with
  | .error _ => none
  | .ok id => ((c.region id).registry.named? name).map fun (ix, _) => ⟨id, ix⟩

/-- The indexes of a region in creation order. -/
def indexesOf (c : Cache) (id : RegionId) : List IndexRef :=
  (c.region id).registry.publishedIndexes.map fun (ix, _) => ⟨id, ix⟩

/-- The indexes of the region at a path in creation order; none if there is no such region
(`QueryService::get_indexes`). -/
def indexes (c : Cache) (path : String) : List IndexRef :=
  match c.find path with
  | .error _ => []
  | .ok id => c.indexesOf id

/-- The indexes of all regions of the catalog (`QueryService::get_all_indexes`). -/
def allIndexes (c : Cache) : List IndexRef := c.regionIds.flatMap c.indexesOf

/-- The index that a reference means. -/
def index (c : Cache) (ref : IndexRef) : Index :=
  ((c.region ref.region).registry.index? ref.index).getD default

def describe (c : Cache) : String := "Cache \x7b regions: " ++ toString c.catalog.length ++ " \x7d"

end Cache

end IndexedStore
