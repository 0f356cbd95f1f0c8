import IndexedStore.Slots.Ordered
import IndexedStore.Slots.Striped
import IndexedStore.Slots.Unique

/-!
# Slot stores

The store of an index of any kind (`structure::IndexStructure`), with the functions of the trait `IndexStore`
that dispatch on the kind. Of the three only a primary-key store can refuse an update.
-/

namespace IndexedStore

inductive SlotStore where
  | ordered (slots : OrderedSlots)
  | striped (slots : StripedSlots)
  | unique (slots : UniqueSlots)
deriving Inhabited

namespace SlotStore

/-- An empty store for an index of a kind (`IndexStructure::new`). -/
def empty (kind : IndexKind) (name : String) (hasher : Hasher) (stripes : Nat) : SlotStore :=
  match kind with
  | .range => .ordered .empty
  | .hash => .striped (.empty hasher stripes)
  | .primaryKey => .unique (.empty name)

def kind : SlotStore → IndexKind
  | .ordered _ => .range
  | .striped _ => .hash
  | .unique _ => .primaryKey

/-- The mappings of an entry key changed from `old` to `new` (`IndexStore::update_mapping`). At a violation those
of `old` are gone and none of `new` is there. -/
def update (s : SlotStore) (key : Key) (old new : List Slot) : Option Violation × SlotStore :=
  match s with
  | .ordered slots => (none, .ordered (slots.update key old new))
  | .striped slots => (none, .striped (slots.update key old new))
  | .unique slots => let (violation, slots) := slots.update key old new; (violation, .unique slots)

/-- The entry keys with a slot that satisfies a comparison; one that the kind does not support finds
nothing (`IndexStore::lookup`). -/
def lookup (s : SlotStore) (op : Comparison) (probe : Option Key) : Except BoundsFault Lookup :=
  match s with
  | .ordered slots => slots.lookup op probe
  | .striped slots => .ok (slots.lookup op probe)
  | .unique slots => .ok (slots.lookup op probe)

/-- The entry keys with a defined slot between two bounds, where the store is ordered
(`IndexStore::lookup_range`). -/
def lookupRange? (s : SlotStore) (lower upper : KeyBound) : Option (Except BoundsFault Lookup) :=
  match s with
  | .ordered slots => some (slots.lookupRange lower upper)
  | .striped _ | .unique _ => none

/-- Whether an entry key stands under a slot. -/
def contains (s : SlotStore) (slot : Slot) (key : Key) : Bool :=
  match s with
  | .ordered slots => slots.contains slot key
  | .striped slots => slots.contains slot key
  | .unique slots => slots.contains slot key

/-- The number of slots, the undefined one counting as one, and the number of mappings
(`IndexStore::counts`). -/
def counts : SlotStore → Nat × Nat
  | .ordered slots => slots.counts
  | .striped slots => slots.counts
  | .unique slots => slots.counts

/-- The store with nothing in it (`IndexStore::clear`). -/
def cleared : SlotStore → SlotStore
  | .ordered _ => .ordered .empty
  | .striped slots => .striped slots.cleared
  | .unique slots => .unique (.empty slots.name)

end SlotStore

end IndexedStore
