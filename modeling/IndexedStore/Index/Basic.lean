import IndexedStore.Error
import IndexedStore.Scope.Tuples
import IndexedStore.Slots.Store
import IndexedStore.Text.Quoted

/-!
# Indexes

An index (`index::Index`) keeps, beside its slot store, the slots of each entry key it has mapped, which is its
`reverse` map, and the keys it had to turn away. `Index.project` gives the slots of a region value;
`Index.apply` makes the slots of one entry key those of its new value, without looking at the old value. When
the new value cannot be projected, or a primary-key index refuses it, the key is left without slots; a refused
key is marked degraded, so that queries look at its entry all the same.
-/

namespace IndexedStore

/-- `index::IndexState`. -/
inductive IndexState where
  /-- Kept up to date, while the scan of the region's entries is going on. -/
  | building
  | ready
  | removed
deriving Repr, DecidableEq, Inhabited

namespace IndexState

def title : IndexState → String
  | .building => "Building"
  | .ready => "Ready"
  | .removed => "Removed"

end IndexState

/-- What the scan that filled an index came across (`builder::BuildStats`, without the time it took). -/
structure BuildReport where
  scanned : Nat
  /-- Entries whose value was read from the backing store. -/
  fromDisk : Nat
  /-- Entries that the index could not take in. -/
  exceptions : Nat
deriving Repr, DecidableEq, Inhabited

namespace BuildReport

def empty : BuildReport := ⟨0, 0, 0⟩

end BuildReport

/-- Counts of what happened to an index (`stats::IndexStatistics`, without the time updates took). -/
structure IndexCounters where
  updates : Nat
  lookups : Nat
  exceptions : Nat
  violations : Nat
deriving Repr, DecidableEq, Inhabited

/-- A secondary index of a region. -/
structure Index where
  compiled : CompiledDefinition
  store : SlotStore
  /-- The slots of each entry key in the store. -/
  mapped : Table Key (List Slot)
  /-- The entry keys that were refused. -/
  degraded : List Key
  counters : IndexCounters
  state : IndexState
  build : BuildReport
deriving Inhabited

/-- Why an entry is not in an index: the errors of `Index::apply`. -/
inductive Exclusion where
  | evaluation (cause : EvaluationFault)
  | violation (cause : Violation)
deriving Repr, DecidableEq

namespace Index

/-- A new index with nothing in it (`Index::new`). -/
def new (compiled : CompiledDefinition) (hasher : Hasher) (stripes : Nat) : Index where
  compiled := compiled
  store := .empty compiled.kind compiled.name hasher stripes
  mapped := []
  degraded := []
  counters := ⟨0, 0, 0, 0⟩
  state := .building
  build := .empty

def name (ix : Index) : String := ix.compiled.name

def kind (ix : Index) : IndexKind := ix.compiled.kind

def signature (ix : Index) : IndexSignature := ix.compiled.signature

/-- The slot of one tuple of the scope: what `Index::project` does at each tuple. -/
def slotOf (locator : Locator) (tuple : List Value) : Except EvaluationFault Slot :=
  match locator.eval tuple with
  | .error fault => .error fault
  | .ok v => (Key.ofValue v).map Slot.ofKey?

/-- The slots of tuples in order, up to the first that has none. -/
def slotsOf (locator : Locator) : List (List Value) → Except EvaluationFault (List Slot)
  | [] => .ok []
  | tuple :: rest =>
    match slotOf locator tuple with
    | .error fault => .error fault
    | .ok slot => (slotsOf locator rest).map (slot :: ·)

/-- The slots of a region value under a compiled definition, one for each tuple. A tuple without a slot ends the
visit, so its fault comes before one of the visit itself. -/
def slotsOfValue (compiled : CompiledDefinition) (v : Value) : Except EvaluationFault (List Slot) :=
  let visit := compiled.scope.tuples v
  match slotsOf compiled.locator visit.tuples, visit.fault with
  | .error fault, _ => .error fault
  | .ok _, some fault => .error fault
  | .ok slots, none => .ok slots

/-- The slots of a region value (`Index::project`). -/
def project (ix : Index) (v : Value) : Except EvaluationFault (List Slot) := slotsOfValue ix.compiled v

/-- The slots of an entry: of its value, or none when it has no value. -/
def projectEntry (ix : Index) : Option Value → Except EvaluationFault (List Slot)
  | none => .ok []
  | some v => ix.project v

/-- The index with the slots of an entry key changed from `old` to `new`, and why that was refused: the arms of
`Index::apply` that call `update_mapping`, `add_mapping` or `remove_mapping`. -/
def remap (ix : Index) (key : Key) (old new : List Slot) : Option Violation × Index :=
  match ix.store.update key old new with
  | (none, store) =>
    let mapped := if new.isEmpty then Table.erase key ix.mapped else Table.set key new ix.mapped
    (none, { ix with store := store, mapped := mapped })
  | (some violation, store) =>
    (some violation, { ix with store := store, mapped := Table.erase key ix.mapped })

/-- The index with the slots of an entry key made those of its value, apart from the mark and the
counters: the `outcome` of `Index::apply`. -/
def settle (ix : Index) (key : Key) (value : Option Value) : Option Exclusion × Index :=
  let current := Table.find? key ix.mapped
  match ix.projectEntry value with
  | .ok new =>
    if new = current.getD [] then (none, ix)
    else
      let (refused, ix) := ix.remap key (current.getD []) new
      (refused.map .violation, ix)
  | .error fault =>
    match current with
    | some old => (some (.evaluation fault), (ix.remap key old []).2)
    | none => (some (.evaluation fault), ix)

/-- The index with the slots of an entry key made those of its value; no value takes the key out
(`Index::apply`). -/
def apply (ix : Index) (key : Key) (value : Option Value) : Option Exclusion × Index :=
  let (excluded, ix) := ix.settle key value
  let degraded :=
    match excluded with
    | some (.violation _) => if key ∈ ix.degraded then ix.degraded else ix.degraded ++ [key]
    | _ => ix.degraded.erase key
  (excluded, { ix with
    degraded := degraded
    counters := { ix.counters with updates := ix.counters.updates + 1 } })

/-- `apply`, with an exclusion counted. The answer tells whether the entry was taken in
(`maintenance::maintain`). -/
def maintain (ix : Index) (key : Key) (value : Option Value) : Bool × Index :=
  match ix.apply key value with
  | (none, ix) => (true, ix)
  | (some (.violation _), ix) =>
    (false, { ix with counters := { ix.counters with violations := ix.counters.violations + 1 } })
  | (some (.evaluation _), ix) =>
    (false, { ix with counters := { ix.counters with exceptions := ix.counters.exceptions + 1 } })

/-- The index with one more look-up counted (`IndexStatistics::record_lookup`). -/
def countLookup (ix : Index) : Index :=
  { ix with counters := { ix.counters with lookups := ix.counters.lookups + 1 } }

/-- The entry keys with a slot that satisfies a comparison (`Index::lookup`). -/
def lookup (ix : Index) (op : Comparison) (probe : Option Key) : Except Error Lookup :=
  if ix.state = .removed then .error (.indexRemoved ix.name)
  else if !ix.kind.supports op then .error (.unsupported ix.name ix.kind op.symbol)
  else (ix.store.lookup op probe).mapError .improperBounds

/-- The entry keys with a defined slot between two bounds (`Index::lookup_range`). -/
def lookupRange (ix : Index) (lower upper : KeyBound) : Except Error Lookup :=
  if ix.state = .removed then .error (.indexRemoved ix.name)
  else match ix.store.lookupRange? lower upper with
    | some found => found.mapError .improperBounds
    | none => .error (.unsupported ix.name ix.kind "BETWEEN")

/-- How the scope of the index relates to that of a query (`Index::covers`). -/
def covers (ix : Index) (query : Scope) : Except Error Coverage :=
  match ix.compiled.scope.coverage? query with
  | some coverage => .ok coverage
  | none => .error (.scopeMismatch ix.name ix.compiled.scope.shape query.shape)

/-- Whether a path of a query's scope is the indexed expression (`Index::indexes_path`). -/
def indexesPath (ix : Index) (query : Scope) (path : Path) : Bool :=
  query.resolve path = ix.compiled.locator

/-- The number of slots and the number of mappings. -/
def counts (ix : Index) : Nat × Nat := ix.store.counts

/-- The number of entry keys with slots (`Index::entry_count`). -/
def entryCount (ix : Index) : Nat := ix.mapped.length

/-- The index with its contents dropped for good (`Index::discard`). -/
def discard (ix : Index) : Index :=
  { ix with state := .removed, store := ix.store.cleared, mapped := [], degraded := [] }

/-- What a check of an index against itself can find. -/
inductive Finding where
  /-- A slot of a key is not in the store. -/
  | missing (key : Key) (slot : Slot)
  /-- The store has another number of mappings than the keys. -/
  | unbalanced (mapped stored : Nat)
  /-- A key is degraded. -/
  | refused (key : Key)
deriving Repr, DecidableEq

/-- All that a check of the index against itself finds (`Index::verify`). -/
def verify (ix : Index) : List Finding :=
  let missing := ix.mapped.flatMap fun (key, slots) =>
    (slots.filter fun slot => !ix.store.contains slot key).map (Finding.missing key)
  let mapped := sumOf (·.2.length) ix.mapped
  let stored := ix.counts.2
  missing ++ (if mapped = stored then [] else [.unbalanced mapped stored]) ++ ix.degraded.map .refused

/-- The text of a finding, a line of `Index::verify`. -/
def findingText (ix : Index) (finding : Finding) : String :=
  "index '" ++ ix.name ++ "': " ++
    match finding with
    | .missing key (.defined v) => "key " ++ key.display ++ " missing under Defined(" ++ v.display ++ ")"
    | .missing key .undefined => "key " ++ key.display ++ " missing under Undefined"
    | .unbalanced mapped stored =>
      toString mapped ++ " mapped values but structure holds " ++ toString stored
    | .refused key => "key " ++ key.display ++ " rejected by uniqueness constraint"

/-- An index shown with its fields: `Index`'s `Debug`. -/
def describe (ix : Index) : String :=
  "Index \x7b name: " ++ Text.quoted ix.name ++ ", kind: " ++ ix.kind.title ++ ", expression: " ++
    Text.quoted ix.compiled.expression.text ++ ", from: " ++ Text.quoted ix.compiled.scope.text ++
    ", state: " ++ ix.state.title ++ " \x7d"

end Index

end IndexedStore
