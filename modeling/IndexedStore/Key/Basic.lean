import IndexedStore.Value.Basic

/-!
# Keys

A key (`types::Key`) names an entry of a region, and is also what an index stores of an entry. Keys are totally
ordered. The order puts truth values before numbers, numbers before texts and texts before composites; numbers
of both kinds compare by magnitude, texts by code point, composites part by part. `compare_eq_iff` says that
only identical keys compare equal, and equality of keys is decided by it.

`hashInput` is what of a key a hash function may look at.
-/

namespace IndexedStore

inductive Key where
  | bool (b : Bool)
  | int (i : Int64)
  /-- A number that is no integer in the range of `int`, an `OrderedFloat`; built by `Key.ofFloat`. -/
  | float (x : Binary64)
  | text (s : String)
  | composite (parts : List Key)
deriving Repr, Inhabited

/-- The classes that comparisons of order do not cross (`types::KeyClass`). -/
inductive KeyClass where
  | bool
  | number
  | text
  | composite
deriving Repr, DecidableEq

namespace KeyClass

/-- The place of a class among the classes. -/
def rank : KeyClass → Nat
  | .bool => 0
  | .number => 1
  | .text => 2
  | .composite => 3

instance : Ord KeyClass := ⟨fun a b => compare a.rank b.rank⟩

end KeyClass

namespace Key

/-- The key of a binary64 number: an integer where the number is one in range, and one NaN for all
(`Key::float`). -/
def ofFloat (x : Binary64) : Key :=
  if x.isNaN then .float .nan
  else match x.toInt?.bind word? with
    | some i => .int i
    | none => .float x

/-- `Key::class`. -/
def keyClass : Key → KeyClass
  | .bool _ => .bool
  | .int _ | .float _ => .number
  | .text _ => .text
  | .composite _ => .composite

/-- A key that no key of the class built from a value is below (`Key::class_floor`). -/
def floor : KeyClass → Key
  | .bool => .bool false
  | .number => .float .negInfinity
  | .text => .text ""
  | .composite => .composite []

mutual

/-- The order of keys: `Key`'s `Ord`, with `cmp_numbers` for two numbers. An integer and a float that round to
one number are told apart by kind, the integer first. -/
def order : Key → Key → Ordering
  | .bool a, .bool b => compare a b
  | .int a, .int b => compare a.toInt b.toInt
  | .float a, .float b => a.totalCompare b
  | .int a, .float b => ((Binary64.ofInt a.toInt).totalCompare b).then .lt
  | .float a, .int b => (a.totalCompare (Binary64.ofInt b.toInt)).then .gt
  | .text a, .text b => compare a b
  | .composite as, .composite bs => orderParts as bs
  | a, b => compare a.keyClass b.keyClass

/-- Parts compare one by one, and a composite comes after its own beginnings. -/
def orderParts : List Key → List Key → Ordering
  | [], [] => .eq
  | [], _ :: _ => .lt
  | _ :: _, [] => .gt
  | a :: as, b :: bs => (order a b).then (orderParts as bs)

end

instance : Ord Key := ⟨order⟩

mutual

theorem order_self : ∀ a : Key, order a a = .eq
  | .bool b => by cases b <;> rfl
  | .int i => by simp [order]
  | .float x => by simp [order, Binary64.totalCompare_eq_iff]
  | .text s => by simp [order]
  | .composite parts => by simp [order, orderParts_self parts]

theorem orderParts_self : ∀ parts : List Key, orderParts parts parts = .eq
  | [] => rfl
  | a :: as => by simp [orderParts, order_self a, orderParts_self as]

end

mutual

theorem eq_of_order : ∀ {a b : Key}, order a b = .eq → a = b
  | .bool a, .bool b, h => by
    cases a <;> cases b <;> first | rfl | exact absurd h (by decide)
  | .int a, .int b, h => by
    simp only [order, Std.compare_eq_iff_eq] at h
    rw [Int64.toInt_inj.mp h]
  | .float a, .float b, h => by
    simp only [order, Binary64.totalCompare_eq_iff] at h
    rw [h]
  | .int a, .float b, h => by
    simp [order, Ordering.then_eq_eq] at h
  | .float a, .int b, h => by
    simp [order, Ordering.then_eq_eq] at h
  | .text a, .text b, h => by
    simp only [order, Std.compare_eq_iff_eq] at h
    rw [h]
  | .composite as, .composite bs, h => by
    simp only [order] at h
    rw [eq_of_orderParts h]
  | .bool _, .int _, h | .bool _, .float _, h | .bool _, .text _, h | .bool _, .composite _, h
  | .int _, .bool _, h | .int _, .text _, h | .int _, .composite _, h
  | .float _, .bool _, h | .float _, .text _, h | .float _, .composite _, h
  | .text _, .bool _, h | .text _, .int _, h | .text _, .float _, h | .text _, .composite _, h
  | .composite _, .bool _, h | .composite _, .int _, h | .composite _, .float _, h
  | .composite _, .text _, h => by
    simp [order, keyClass, compare, compareOfLessAndEq, KeyClass.rank] at h

theorem eq_of_orderParts : ∀ {as bs : List Key}, orderParts as bs = .eq → as = bs
  | [], [], _ => rfl
  | [], _ :: _, h => by simp [orderParts] at h
  | _ :: _, [], h => by simp [orderParts] at h
  | a :: as, b :: bs, h => by
    simp only [orderParts, Ordering.then_eq_eq] at h
    rw [eq_of_order h.1, eq_of_orderParts h.2]

end

/-- Only identical keys compare equal. -/
theorem compare_eq_iff {a b : Key} : compare a b = .eq ↔ a = b :=
  ⟨eq_of_order, fun h => h ▸ order_self a⟩

instance : DecidableEq Key := fun a b =>
  if h : compare a b = .eq then isTrue (compare_eq_iff.1 h)
  else isFalse fun hab => h (compare_eq_iff.2 hab)

/-- `a` comes before `b`. -/
def before (a b : Key) : Bool := compare a b == .lt

/-- `a` comes before `b` or is `b`. -/
def upTo (a b : Key) : Bool := compare a b != .gt

mutual

/-- The text of a key, by `Key`'s `Display`: as of a value, but for composites, which stand in round
brackets. -/
def display : Key → String
  | .bool b => if b then "true" else "false"
  | .int i => toString i.toInt
  | .float x => x.shortest
  | .text s => "'" ++ s ++ "'"
  | .composite parts => "(" ++ Text.joinWith ", " (displayParts parts) ++ ")"

def displayParts : List Key → List String
  | [] => []
  | k :: rest => display k :: displayParts rest

end

mutual

/-- What of a key a hash function may look at: what `Key`'s `Hash` feeds to it. Each kind begins with a number
of its own, texts end with a number no character has, and composites begin with their length. -/
def hashInput : Key → List UInt64
  | .bool b => [0, if b then 1 else 0]
  | .int i => [1, i.toUInt64]
  | .float x => [2, x.bits]
  | .text s => 3 :: (s.toList.map fun c => c.toNat.toUInt64) ++ [0xffffffff]
  | .composite parts => 4 :: parts.length.toUInt64 :: hashInputParts parts

def hashInputParts : List Key → List UInt64
  | [] => []
  | k :: rest => hashInput k ++ hashInputParts rest

end

end Key

/-- A hash function for keys: a `RandomState`, which is another one wherever it is drawn. -/
structure Hasher where
  digest : List UInt64 → UInt64

namespace Hasher

/-- The hash of a key (`hash_one`). -/
def key (h : Hasher) (k : Key) : UInt64 := h.digest k.hashInput

/-- A hash function that multiplies and adds word by word. -/
def multiplicative : Hasher where
  digest words := words.foldl (fun acc w => (acc ^^^ w) * 0x100000001b3) 0xcbf29ce484222325

instance : Inhabited Hasher := ⟨multiplicative⟩

end Hasher

end IndexedStore
