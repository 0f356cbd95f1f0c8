import IndexedStore.Slots.Basic

/-!
# Slots in order

The store of a range index (`range::RangeStructure`): defined slots sorted by key, each with its postings, and
the postings of the undefined slot. It answers every comparison, and the entry keys between two bounds, in the
order of the indexed values.

A comparison of order is answered by one slice of the sorted slots, which begins at the floor of the
probe's class or ends with that class, so no slot of another class is found. A slice between improper
bounds is refused; only a probe below the floor of its class leads to one, which no key built from a
value is.
-/

namespace IndexedStore

/-- One end of a range of keys: a `Bound`. -/
inductive KeyBound where
  | unbounded
  | included (key : Key)
  | excluded (key : Key)
deriving Repr, DecidableEq

namespace KeyBound

def key? : KeyBound → Option Key
  | .unbounded => none
  | .included k | .excluded k => some k

def display : KeyBound → String
  | .unbounded => "unbounded"
  | .included k => "including " ++ k.display
  | .excluded k => "excluding " ++ k.display

def isIncluded : KeyBound → Bool
  | .included _ => true
  | _ => false

/-- Whether a key lies above a lower bound. -/
def admitsAbove : KeyBound → Key → Bool
  | .unbounded, _ => true
  | .included b, k => b.upTo k
  | .excluded b, k => b.before k

/-- Whether a key lies below an upper bound. -/
def admitsBelow : KeyBound → Key → Bool
  | .unbounded, _ => true
  | .included b, k => k.upTo b
  | .excluded b, k => k.before b

/-- Bounds between which a tree can be searched: the lower one is not above the upper one, and they do
not exclude the same key. With others `BTreeMap::range` panics. -/
def proper (lower upper : KeyBound) : Bool :=
  match lower.key?, upper.key? with
  | some lo, some hi =>
    lo.upTo hi && !(lo == hi && !lower.isIncluded && !upper.isIncluded)
  | _, _ => true

/-- Bounds that nothing can satisfy: reversed, at one key with that key excluded, or of two classes
(`range::empty_bounds`). -/
def disjoint (lower upper : KeyBound) : Bool :=
  match lower.key?, upper.key? with
  | some lo, some hi =>
    lo.keyClass != hi.keyClass || hi.before lo || (lo == hi && !(lower.isIncluded && upper.isIncluded))
  | _, _ => false

end KeyBound

/-- A slice was asked for between bounds that are not proper. -/
structure BoundsFault where
  lower : KeyBound
  upper : KeyBound
deriving Repr, DecidableEq

/-- The store of a range index: the `RangeInner` of a `RangeStructure`. -/
structure OrderedSlots where
  values : List (Key × Postings)
  undefined : Postings
  total : Nat
  /-- Whether there has been a defined slot since the store was made or cleared. Until then there is
  nothing to search, and bounds are not looked at. -/
  rooted : Bool
deriving Repr, Inhabited

namespace OrderedSlots

def empty : OrderedSlots := ⟨[], .empty, 0, false⟩

/-- One more occurrence of an entry key under a value, at the value's place in the order. -/
def addUnder (value key : Key) : List (Key × Postings) → List (Key × Postings)
  | [] => [(value, Postings.empty.add key)]
  | (v, p) :: rest =>
    match compare value v with
    | .lt => (value, Postings.empty.add key) :: (v, p) :: rest
    | .eq => (v, p.add key) :: rest
    | .gt => (v, p) :: addUnder value key rest

/-- One occurrence less of an entry key under a value, or `none` when there is none; a value without
postings goes. -/
def removeUnder? (value key : Key) : List (Key × Postings) → Option (List (Key × Postings))
  | [] => none
  | (v, p) :: rest =>
    if v = value then
      (p.remove? key).map fun left => if left.isEmpty then rest else (v, left) :: rest
    else (removeUnder? value key rest).map ((v, p) :: ·)

/-- One more mapping of an entry key (`RangeInner::add`). -/
def add (s : OrderedSlots) (key : Key) (slot : Slot) : OrderedSlots :=
  match slot with
  | .defined v => { s with values := addUnder v key s.values, total := s.total + 1, rooted := true }
  | .undefined => { s with undefined := s.undefined.add key, total := s.total + 1 }

/-- One mapping of an entry key less, if it has one (`RangeInner::remove`). -/
def remove (s : OrderedSlots) (key : Key) (slot : Slot) : OrderedSlots :=
  match slot with
  | .defined v =>
    match removeUnder? v key s.values with
    | some values => { s with values := values, total := s.total - 1 }
    | none => s
  | .undefined =>
    match s.undefined.remove? key with
    | some postings => { s with undefined := postings, total := s.total - 1 }
    | none => s

/-- The mappings of an entry key changed from `old` to `new` (`RangeStructure::update_mapping`). -/
def update (s : OrderedSlots) (key : Key) (old new : List Slot) : OrderedSlots :=
  new.foldl (·.add key ·) (old.foldl (·.remove key ·) s)

/-- The slots between two bounds (`BTreeMap::range`). -/
def slice (s : OrderedSlots) (lower upper : KeyBound) : Except BoundsFault (List (Key × Postings)) :=
  if s.rooted && !lower.proper upper then .error ⟨lower, upper⟩
  else .ok (s.values.filter fun (v, _) => lower.admitsAbove v && upper.admitsBelow v)

/-- The bounds between which the slots satisfying a comparison of order with a probe lie; those above
the probe end with its class. -/
def boundsOf (op : Comparison) (probe : Key) : KeyBound × KeyBound :=
  match op with
  | .lt => (.included (.floor probe.keyClass), .excluded probe)
  | .le => (.included (.floor probe.keyClass), .included probe)
  | .gt => (.excluded probe, .unbounded)
  | .ge => (.included probe, .unbounded)
  | .eq | .ne | .isUndefined => (.included probe, .included probe)

/-- The postings of the slots that satisfy a comparison, in the order of the slots. -/
def matching (s : OrderedSlots) (op : Comparison) (probe : Option Key) :
    Except BoundsFault (List Postings) :=
  match op, probe with
  | .isUndefined, _ => .ok [s.undefined]
  | .ne, _ => .ok ((s.values.filter fun (v, _) => op.holds (some v) probe).map (·.2))
  | _, none => .ok []
  | .eq, some p => .ok ((s.values.filter fun (v, _) => v == p).map (·.2))
  | _, some p =>
    (s.slice (boundsOf op p).1 (boundsOf op p).2).map fun found =>
      (found.takeWhile fun (v, _) => v.keyClass == p.keyClass).map (·.2)

/-- The entry keys with a slot that satisfies a comparison (`RangeStructure::lookup`). -/
def lookup (s : OrderedSlots) (op : Comparison) (probe : Option Key) : Except BoundsFault Lookup :=
  (s.matching op probe).map fun found => .collect true (found.map Postings.keys)

/-- The class that a pair of bounds keeps to: that of the lower key, or else of the upper one. -/
def rangeClass (lower upper : KeyBound) : Option KeyClass :=
  match lower.key?, upper.key? with
  | some k, _ => some k.keyClass
  | none, some k => some k.keyClass
  | none, none => none

/-- The bounds a two-bound look-up searches between: a missing lower bound starts at the floor of the
class. -/
def rangeBounds (lower upper : KeyBound) : KeyBound × KeyBound :=
  match lower, rangeClass lower upper with
  | .unbounded, some c => (.included (.floor c), upper)
  | lower, _ => (lower, upper)

/-- The entry keys with a defined slot between two bounds (`RangeStructure::lookup_range`). -/
def lookupRange (s : OrderedSlots) (lower upper : KeyBound) : Except BoundsFault Lookup :=
  if lower.disjoint upper then .ok (.collect true [])
  else
    let bounds := rangeBounds lower upper
    (s.slice bounds.1 bounds.2).map fun slots =>
      let found := slots.takeWhile fun (v, _) =>
        match rangeClass lower upper with
        | some c => v.keyClass == c
        | none => true
      .collect true (found.map fun (_, p) => p.keys)

/-- Whether an entry key stands under a slot. -/
def contains (s : OrderedSlots) (slot : Slot) (key : Key) : Bool :=
  match slot with
  | .defined v => s.values.any fun (u, p) => u == v && p.contains key
  | .undefined => s.undefined.contains key

/-- The number of slots, the undefined one counting as one, and the number of mappings
(`RangeStructure::counts`). -/
def counts (s : OrderedSlots) : Nat × Nat :=
  (s.values.length + (if s.undefined.isEmpty then 0 else 1), s.total)

end OrderedSlots

end IndexedStore
