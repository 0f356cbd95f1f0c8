import IndexedStore.Slots.Basic

/-!
# Slots with one owner

The store of a primary-key index (`primary_key::PrimaryKeyStructure`): each defined slot has one owning entry
key. A mapping of a slot that another key owns is a violation, and an update that meets one takes back what it
had added.
-/

namespace IndexedStore

/-- A value that one entry key owns was to be mapped to another (`StorageError::PrimaryKeyViolation`). -/
structure Violation where
  index : String
  value : Key
  owner : Key
  key : Key
deriving Repr, DecidableEq

/-- The owner of a slot, and how often it maps the slot (`primary_key::Owner`). -/
structure Owner where
  key : Key
  count : Nat
deriving Repr, DecidableEq

/-- The store of the primary-key index of the given name, with the `PkInner` of a `PrimaryKeyStructure`. -/
structure UniqueSlots where
  name : String
  owners : Table Key Owner
  undefined : Postings
  total : Nat
deriving Repr, Inhabited

namespace UniqueSlots

def empty (name : String) : UniqueSlots := ⟨name, [], .empty, 0⟩

/-- One more mapping of an entry key, unless another key owns the slot (`PkInner::add`). -/
def add (s : UniqueSlots) (key : Key) (slot : Slot) : Except Violation UniqueSlots :=
  match slot with
  | .defined v =>
    match Table.find? v s.owners with
    | some owner =>
      if owner.key = key then
        .ok { s with
          owners := Table.set v ⟨owner.key, owner.count + 1⟩ s.owners
          total := s.total + 1 }
      else .error ⟨s.name, v, owner.key, key⟩
    | none => .ok { s with owners := Table.set v ⟨key, 1⟩ s.owners, total := s.total + 1 }
  | .undefined => .ok { s with undefined := s.undefined.add key, total := s.total + 1 }

/-- One mapping of an entry key less, if it has one (`PkInner::remove`). -/
def remove (s : UniqueSlots) (key : Key) (slot : Slot) : UniqueSlots :=
  match slot with
  | .defined v =>
    match Table.find? v s.owners with
    | some owner =>
      if owner.key = key then
        let owners :=
          if owner.count - 1 = 0 then Table.erase v s.owners
          else Table.set v ⟨owner.key, owner.count - 1⟩ s.owners
        { s with owners := owners, total := s.total - 1 }
      else s
    | none => s
  | .undefined =>
    match s.undefined.remove? key with
    | some postings => { s with undefined := postings, total := s.total - 1 }
    | none => s

/-- The mappings in `slots` added in order; at a violation those in `done`, which were added before,
are taken back: the second loop of `PrimaryKeyStructure::update_mapping`. -/
def addAll (s : UniqueSlots) (key : Key) (done : List Slot) :
    List Slot → Option Violation × UniqueSlots
  | [] => (none, s)
  | slot :: rest =>
    match s.add key slot with
    | .ok added => added.addAll key (done ++ [slot]) rest
    | .error violation => (some violation, done.foldl (·.remove key ·) s)

/-- The mappings of an entry key changed from `old` to `new`; at a violation those of `old` are gone and
none of `new` is there (`PrimaryKeyStructure::update_mapping`). -/
def update (s : UniqueSlots) (key : Key) (old new : List Slot) : Option Violation × UniqueSlots :=
  (old.foldl (·.remove key ·) s).addAll key [] new

/-- The entry keys with a slot that satisfies a comparison; comparisons of order find nothing
(`PrimaryKeyStructure::lookup`). -/
def lookup (s : UniqueSlots) (op : Comparison) (probe : Option Key) : Lookup :=
  match op with
  | .eq =>
    match probe.bind (Table.find? · s.owners) with
    | some owner => .collect false [[owner.key]]
    | none => .collect false []
  | .ne =>
    .collect false [(s.owners.filter fun (v, _) => op.holds (some v) probe).map fun (_, o) => o.key]
  | .isUndefined => .collect false [s.undefined.keys]
  | .lt | .le | .gt | .ge => .collect false []

/-- Whether an entry key stands under a slot. -/
def contains (s : UniqueSlots) (slot : Slot) (key : Key) : Bool :=
  match slot with
  | .defined v => (Table.find? v s.owners).any (·.key == key)
  | .undefined => s.undefined.contains key

/-- The number of slots, the undefined one counting as one, and the number of mappings
(`PrimaryKeyStructure::counts`). -/
def counts (s : UniqueSlots) : Nat × Nat :=
  (s.owners.length + (if s.undefined.isEmpty then 0 else 1), s.total)

end UniqueSlots

end IndexedStore
