import IndexedStore.Slots.Basic

/-!
# Slots spread by hash

The store of a hash index (`hash::HashStructure`). Defined slots are spread over stripes by a hash function,
each stripe with a lock of its own, and the undefined slot has one more stripe at the end. An update locks the
stripes of all its slots once each, in ascending order, and finds each slot's stripe among those it holds.
-/

namespace IndexedStore

/-- The slots of one stripe, with the number of its mappings (`hash::Stripe`). -/
structure Stripe where
  slots : Table Slot Postings
  total : Nat
deriving Repr, Inhabited

namespace Stripe

def empty : Stripe := ⟨[], 0⟩

def postings (s : Stripe) (slot : Slot) : Postings := (Table.find? slot s.slots).getD .empty

/-- `Stripe::add`. -/
def add (s : Stripe) (key : Key) (slot : Slot) : Stripe :=
  ⟨Table.set slot ((s.postings slot).add key) s.slots, s.total + 1⟩

/-- One mapping less, if there is one; a slot without postings goes (`Stripe::remove`). -/
def remove (s : Stripe) (key : Key) (slot : Slot) : Stripe :=
  match Table.find? slot s.slots with
  | none => s
  | some postings =>
    match postings.remove? key with
    | none => if postings.isEmpty then { s with slots := Table.erase slot s.slots } else s
    | some left =>
      if left.isEmpty then ⟨Table.erase slot s.slots, s.total - 1⟩
      else ⟨Table.set slot left s.slots, s.total - 1⟩

end Stripe

/-- The store of a hash index (`hash::HashStructure`). -/
structure StripedSlots where
  hasher : Hasher
  stripes : List Stripe
deriving Inhabited

namespace StripedSlots

/-- An empty store with `max stripes 1` stripes for defined slots and one for the undefined slot
(`HashStructure::new`). -/
def empty (hasher : Hasher) (stripes : Nat) : StripedSlots :=
  ⟨hasher, List.replicate (max stripes 1 + 1) .empty⟩

/-- The stripe of a slot (`HashStructure::stripe_of`). -/
def stripeOf (s : StripedSlots) : Slot → Nat
  | .defined k => (s.hasher.key k).toNat % (s.stripes.length - 1)
  | .undefined => s.stripes.length - 1

/-- The stripes that an update with these slots locks, in the order of locking: the `touched` of
`HashStructure::update_mapping`, sorted and without repetition. -/
def held (s : StripedSlots) (slots : List Slot) : List Nat :=
  ((slots.map s.stripeOf).mergeSort).eraseReps

/-- The place of a number in an ascending list, found by halving (`binary_search_by_key`). -/
def place? (target : Nat) (ascending : List Nat) : Option Nat :=
  let middle := ascending.length / 2
  match h : ascending[middle]? with
  | none => none
  | some found =>
    have : middle < ascending.length := by
      rw [List.getElem?_eq_some_iff] at h
      exact h.1
    if found = target then some middle
    else if target < found then place? target (ascending.take middle)
    else (place? target (ascending.drop (middle + 1))).map (· + (middle + 1))
termination_by ascending.length
decreasing_by all_goals simp only [List.length_take, List.length_drop]; omega

/-- One change to the stripe of a slot, which is looked for among the stripes held; a slot whose stripe
is not held is passed over. A turn of the loop of `HashStructure::update_mapping`. -/
def change (s : StripedSlots) (locked : List Nat) (slot : Slot) (f : Stripe → Stripe) : StripedSlots :=
  match (place? (s.stripeOf slot) locked).bind (locked[·]?) with
  | some stripe => { s with stripes := s.stripes.modify stripe f }
  | none => s

/-- The mappings of an entry key changed from `old` to `new` (`HashStructure::update_mapping`). -/
def update (s : StripedSlots) (key : Key) (old new : List Slot) : StripedSlots :=
  let locked := s.held (old ++ new)
  let cleared := old.foldl (fun s slot => s.change locked slot (·.remove key slot)) s
  new.foldl (fun s slot => s.change locked slot (·.add key slot)) cleared

/-- The stripe at a position; there is none past the end. -/
def stripeAt (s : StripedSlots) (i : Nat) : Stripe := s.stripes[i]?.getD .empty

/-- The postings of the slots that satisfy a comparison; comparisons of order find nothing. -/
def matching (s : StripedSlots) (op : Comparison) (probe : Option Key) : List Postings :=
  match op with
  | .eq =>
    match probe with
    | some p => [(s.stripeAt (s.stripeOf (.defined p))).postings (.defined p)]
    | none => []
  | .isUndefined => [(s.stripeAt (s.stripeOf .undefined)).postings .undefined]
  | .ne =>
    s.stripes.flatMap fun stripe =>
      (stripe.slots.filter fun (slot, _) => op.holds slot.key? probe).map (·.2)
  | .lt | .le | .gt | .ge => []

/-- The entry keys with a slot that satisfies a comparison (`HashStructure::lookup`). -/
def lookup (s : StripedSlots) (op : Comparison) (probe : Option Key) : Lookup :=
  .collect false ((s.matching op probe).map Postings.keys)

/-- Whether an entry key stands under a slot. -/
def contains (s : StripedSlots) (slot : Slot) (key : Key) : Bool :=
  ((s.stripeAt (s.stripeOf slot)).postings slot).contains key

/-- The number of slots and the number of mappings (`HashStructure::counts`). -/
def counts (s : StripedSlots) : Nat × Nat :=
  (sumOf (·.slots.length) s.stripes, sumOf (·.total) s.stripes)

/-- The store with every stripe emptied (`HashStructure::clear`). -/
def cleared (s : StripedSlots) : StripedSlots :=
  { s with stripes := s.stripes.map fun _ => .empty }

end StripedSlots

end IndexedStore
