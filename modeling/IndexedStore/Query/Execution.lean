import IndexedStore.Query.Plan
import IndexedStore.Region.Maintenance

/-!
# Query execution

A plan only says where to look for candidates (`executor::QueryExecutor`). The value of every candidate is read
from the region and checked tuple by tuple, so an index that lags behind cannot make a row that does not belong.
Candidates of an index are the entry keys it finds and then its degraded keys.

An observer is told of the start and the end of a query and of what lies before and after an index
look-up, and may do anything to the state there. It is looked up once for a query.
-/

namespace IndexedStore

/-- A tuple that a query selects (`executor::ResultRow`). -/
structure Row where
  key : Key
  /-- The region's value of the key. -/
  value : Value
  /-- What rows are sorted by; none where that is undefined, or no order is asked for. -/
  sortKey : Option Key
deriving Repr, Inhabited

/-- `executor::QueryResults`. -/
structure Results where
  rows : List Row
  plan : Plan
deriving Repr, Inhabited

/-- What is told of the course of a query, and may change the state (an `observer::QueryObserver`). -/
structure Observer (σ : Type) where
  started : Query → σ → σ
  beforeLookup : Index → Comparison → Option Key → σ → σ
  afterLookup : Index → Lookup → σ → σ
  ended : Query → Nat → σ → σ

namespace Observer

variable {σ : Type}

/-- An observer that does nothing. -/
def silent : Observer σ where
  started _ s := s
  beforeLookup _ _ _ s := s
  afterLookup _ _ s := s
  ended _ _ s := s

end Observer

/-- A host that also knows which query observer is installed, which is `observer::current`. -/
structure QueryHost (σ : Type) extends Host σ where
  observer : σ → Observer σ

/-- What tuples of a query are checked against and sorted by (`executor::Filter`). -/
structure Filter where
  predicate : Option (Predicate × Locator × Option Key)
  order : Option Locator
deriving Repr, Inhabited

namespace Query

/-- The filter of a query, as `QueryExecutor::execute` makes it; a predicate's value that cannot be a key is a
fault. -/
def makeFilter (q : Query) : Except EvaluationFault Filter :=
  let order := q.order.map q.scope.resolve
  match q.predicate with
  | none => .ok ⟨none, order⟩
  | some p => p.probe.map fun probe => ⟨some (p, q.scope.resolve p.path, probe), order⟩

end Query

namespace Filter

def holds (f : Filter) (tuple : List Value) : Bool :=
  match f.predicate with
  | none => true
  | some (p, locator, probe) => p.holds locator probe tuple

def probe (f : Filter) : Option Key := f.predicate.bind (·.2.2)

/-- What a tuple is sorted by. -/
def sortKey (f : Filter) (tuple : List Value) : Option Key :=
  match f.order with
  | none => none
  | some locator =>
    match locator.eval tuple with
    | .error _ => none
    | .ok v =>
      match Key.ofValue v with
      | .ok key => key
      | .error _ => none

/-- The rows of one entry: one for each tuple that the filter lets through, or none at all when the
scope cannot be iterated to its end (`QueryExecutor::emit`). -/
def rowsOf (f : Filter) (scope : Scope) (key : Key) (value : Value) : List Row :=
  let visit := scope.tuples value
  match visit.fault with
  | some _ => []
  | none => (visit.tuples.filter f.holds).map fun tuple => ⟨key, value, f.sortKey tuple⟩

end Filter

namespace Region

/-- The rows of entries in order, up to the first whose value cannot be read: the loops of
`QueryExecutor::collect`. -/
def collectRows (r : Region) (f : Filter) (scope : Scope) : List Key → Except Error (List Row) × Region
  | [] => (.ok [], r)
  | key :: rest =>
    match r.readValue key with
    | (.error e, r) => (.error e, r)
    | (.ok value, r) =>
      let (collected, r) := r.collectRows f scope rest
      let rows := match value with
        | some v => f.rowsOf scope key v
        | none => []
      (collected.map (rows ++ ·), r)

/-- What an index finds, and the region with the look-up counted (`Index::lookup`). -/
def lookupIndex (r : Region) (id : IndexId) (op : Comparison) (probe : Option Key) :
    Except Error Lookup × Region :=
  match (r.registry.index? id).getD default |>.lookup op probe with
  | .error e => (.error e, r)
  | .ok found => (.ok found, { r with registry := r.registry.modify id Index.countLookup })

/-- What an ordered index finds between two bounds, and the region with the look-up counted
(`Index::lookup_range`). -/
def lookupRangeIndex (r : Region) (id : IndexId) (lower upper : KeyBound) :
    Except Error Lookup × Region :=
  match (r.registry.index? id).getD default |>.lookupRange lower upper with
  | .error e => (.error e, r)
  | .ok found => (.ok found, { r with registry := r.registry.modify id Index.countLookup })

end Region

namespace Row

/-- The order of rows by their sort keys, rows without one first: the `sort_by` of `QueryExecutor::execute`. -/
def orderBySortKey (a b : Row) : Bool :=
  match a.sortKey, b.sortKey with
  | none, _ => true
  | some _, none => false
  | some x, some y => x.upTo y

end Row

namespace Results

/-- Each entry key of the rows once, where it first occurs (`QueryResults::distinct_keys`). -/
def distinctKeys (r : Results) : List Key := (r.rows.map (·.key)).eraseDups

end Results

namespace QueryHost

variable {σ : Type}

def index (h : QueryHost σ) (id : IndexId) (s : σ) : Index :=
  ((h.region s).registry.index? id).getD default

/-- The candidates of an index: what it finds, then its degraded keys, which are read after the observer has been
told of the look-up (`QueryExecutor::candidates`). -/
def candidates (h : QueryHost σ) (observer : Observer σ) (id : IndexId) (op : Comparison)
    (probe : Option Key) (s : σ) : Except Error (List Key) × σ :=
  let s := observer.beforeLookup (h.index id s) op probe s
  match h.run (·.lookupIndex id op probe) s with
  | (.error e, s) => (.error e, s)
  | (.ok found, s) =>
    let s := observer.afterLookup (h.index id s) found s
    let refused := (h.index id s).degraded.filter fun key => !found.keys.contains key
    (.ok (found.keys ++ refused), s)

/-- The rows of a query along a plan (`QueryExecutor::collect`). -/
def collect (h : QueryHost σ) (observer : Observer σ) (q : Query) (plan : Plan) (f : Filter) (s : σ) :
    Except Error (List Row) × σ :=
  match plan.root with
  | .scan _ => h.run (fun r => r.collectRows f q.scope r.keys) s
  | .indexScan id _ op _ =>
    match h.candidates observer id op f.probe s with
    | (.error e, s) => (.error e, s)
    | (.ok keys, s) => h.run (·.collectRows f q.scope keys) s

/-- Runs a plan of a query (`QueryExecutor::execute`). Once the query is known to be on the region, its start and
its end are told even if a look-up or a read fails in between. -/
def execute (h : QueryHost σ) (q : Query) (plan : Plan) (s : σ) : Except Error Results × σ :=
  let path := (h.region s).path
  if q.scope.regionPath ≠ path then (.error (.foreignQuery q.scope.regionPath path), s)
  else match q.makeFilter with
    | .error fault => (.error (.evaluation fault), s)
    | .ok f =>
      let observer := h.observer s
      let s := observer.started q s
      let (collected, s) := h.collect observer q plan f s
      let count := match collected with
        | .ok rows => rows.length
        | .error _ => 0
      let s := observer.ended q count s
      match collected with
      | .error e => (.error e, s)
      | .ok rows => (.ok ⟨if plan.sort then rows.mergeSort Row.orderBySortKey else rows, plan⟩, s)

end QueryHost

end IndexedStore
