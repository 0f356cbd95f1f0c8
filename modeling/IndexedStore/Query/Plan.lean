import IndexedStore.Query.Basic
import IndexedStore.Region.Basic

/-!
# Query plans

A plan (`planner::ExecutionPlan`) scans the region, or looks candidates up in an index. Without a hint the index
is the best one that qualifies; where the order is by the predicate's own path, the best ordered one comes
first. A hint is taken only if the index can answer the query. The cost is an estimate of the entries looked at.
-/

namespace IndexedStore

/-- `planner::PlanOperator`. -/
inductive PlanRoot where
  /-- Every entry of a region. -/
  | scan (region : String)
  /-- The entries that an index finds. -/
  | indexScan (id : IndexId) (index : String) (comparison : Comparison) (coverage : Coverage)
deriving Repr, DecidableEq, Inhabited

structure Plan where
  root : PlanRoot
  /-- The predicate that every tuple is checked against. -/
  filter : Option String
  /-- Whether rows are sorted in the end. -/
  sort : Bool
  cost : Binary64
deriving Repr, Inhabited

namespace Plan

def scan (region : String) (cost : Binary64) : Plan := ⟨.scan region, none, false, cost⟩

/-- The entries an index is expected to find: the average of a slot for equality, and otherwise half of
what it holds (`planner::estimate_index_cost`). -/
def indexCost (ix : Index) (op : Comparison) : Binary64 :=
  let (slots, mappings) := ix.counts
  match op with
  | .eq | .isUndefined => .quotient (.ofNat mappings) (.ofNat (max slots 1))
  | _ => .quotient (.ofNat mappings) (.ofNat 2)

def indexScan (id : IndexId) (ix : Index) (op : Comparison) (coverage : Coverage) : Plan :=
  ⟨.indexScan id ix.name op coverage, none, false, indexCost ix op⟩

/-- A plan whose tuples are checked against a predicate, which costs one more
(`ExecutionPlan::with_filter`). -/
def withFilter (p : Plan) (predicate : String) : Plan :=
  { p with filter := some predicate, cost := p.cost.sum (.ofNat 1) }

def withSort (p : Plan) (sort : Bool) : Plan := { p with sort := sort }

def usesIndex (p : Plan) : Bool :=
  match p.root with
  | .scan _ => false
  | .indexScan _ _ _ _ => true

def display (p : Plan) : String :=
  (match p.root with
    | .scan region => "Scan(" ++ region ++ ")"
    | .indexScan _ index op coverage =>
      "IndexScan(" ++ index ++ " " ++ op.symbol ++ " " ++ coverage.display ++ ")") ++
    (match p.filter with
      | some filter => " Filter(" ++ filter ++ ")"
      | none => "") ++
    (if p.sort then " Sort" else "") ++ " cost=" ++ p.cost.withOnePlace

end Plan

namespace Query

/-- The plan through the index that the query names: the branch of `QueryPlanner::plan` for a hint. -/
def planHinted (q : Query) (p : Predicate) (name : String) (r : Region) : Except Error Plan :=
  match r.registry.named? name with
  | none => .error (.indexNotFound name)
  | some (id, ix) =>
    match ix.covers q.scope with
    | .error e => .error e
    | .ok coverage =>
      if !ix.indexesPath q.scope p.path then
        .error (.hintedPath name ix.compiled.expression.text p.path.text)
      else if !ix.kind.supports p.comparison then
        .error (.unsupported name ix.kind p.comparison.symbol)
      else .ok (.indexScan id ix p.comparison coverage)

/-- The index for a predicate: an ordered one if the order asks for it and there is one, or else the best
of all. The `chosen` of `QueryPlanner::plan`. -/
def chooseIndex? (q : Query) (p : Predicate) (r : Region) : Option (IndexId × Index × Coverage) :=
  let choose (ordered : Bool) := r.registry.choose? q.scope p.path ⟨p.comparison, ordered⟩
  (if q.ordersByPredicate then choose true else none).or (choose false)

/-- The plan of a query on a region (`QueryPlanner::plan`); `optimize` allows indexes that the query does not name.
A query without a predicate is always a scan. -/
def plan (q : Query) (optimize : Bool) (r : Region) : Except Error Plan :=
  let scan := Plan.scan r.path (.ofNat r.size)
  let sort := q.order.isSome
  match q.predicate with
  | none => .ok (scan.withSort sort)
  | some p =>
    match q.hint with
    | some name => (q.planHinted p name r).map fun plan => (plan.withFilter p.display).withSort sort
    | none =>
      let root := match if optimize then q.chooseIndex? p r else none with
        | some (id, ix, coverage) => Plan.indexScan id ix p.comparison coverage
        | none => scan
      .ok ((root.withFilter p.display).withSort sort)

end Query

end IndexedStore
